import Mathlib.Data.List.Forall2
import Pagewright.Proofs.Grammar.Compound
import Pagewright.Route.Returns

namespace Pagewright

open Syntax Text

theorem ownedReturnsOf_eq (body : List Stmt) : ownedReturnsOf body = body.flatMap ownedReturns := by
  induction body with
  | nil => rfl
  | cons s ss ih => rw [ownedReturnsOf, ih, List.flatMap_cons]

theorem handlerReturns_eq (hs : List (Handler Stmt)) :
    handlerReturns hs = (hs.map (·.body)).flatMap ownedReturnsOf := by
  induction hs with
  | nil => rfl
  | cons h hs ih => rw [handlerReturns, ih, List.map_cons, List.flatMap_cons]

theorem caseReturns_eq (cs : List (MatchCase Stmt)) :
    caseReturns cs = (cs.map (·.body)).flatMap ownedReturnsOf := by
  induction cs with
  | nil => rfl
  | cons c cs ih => rw [caseReturns, ih, List.map_cons, List.flatMap_cons]

/-- A statement that is no return owns the returns of its blocks, unless it is a scope. -/
theorem ownedReturns_blocks {s : Stmt} (h : ∀ span value, s ≠ .return span value) :
    ownedReturns s = if s.isScope then [] else s.blocks.flatMap ownedReturnsOf := by
  cases s with
  | «return» span value => exact absurd rfl (h span value)
  | matchOn span subject cases => simp [ownedReturns, Stmt.isScope, Stmt.blocks, caseReturns_eq]
  | tryBlock span grouped body handlers orelse finale =>
    simp [ownedReturns, Stmt.isScope, Stmt.blocks, handlerReturns_eq]
  | _ => simp [ownedReturns, Stmt.isScope, Stmt.blocks]

/-- A turn on the way to a statement: to the next statement of a block, or into a block of the
first one. -/
inductive Turn where
  | next
  | enter (block : Nat)
  deriving DecidableEq

/-- A return stands where a way through the blocks of a body leads. No way enters a scope. -/
inductive ReturnAt : List Stmt → List Turn → Return → Prop where
  | here {span : Span} {value : Option Expr} {ss : List Stmt} :
    ReturnAt (.return span value :: ss) [] ⟨span, value⟩
  | next {s : Stmt} {ss : List Stmt} {way : List Turn} {r : Return} (rest : ReturnAt ss way r) :
    ReturnAt (s :: ss) (.next :: way) r
  | enter {s : Stmt} {ss b : List Stmt} {i : Nat} {way : List Turn} {r : Return}
    (inner : s.isScope = false) (block : s.blocks[i]? = some b) (rest : ReturnAt b way r) :
    ReturnAt (s :: ss) (.enter i :: way) r

/-- The ways to the given returns of a body: each of them leads to one, and every way to a
return of the body that starts as `starts` says is among them, once. -/
structure LeadTo (body : List Stmt) (starts : List Turn → Prop) (ways : List (List Turn))
    (rs : List Return) : Prop where
  nodup : ways.Nodup
  each : List.Forall₂ (ReturnAt body) ways rs
  all : ∀ way r, starts way → ReturnAt body way r → way ∈ ways

theorem ReturnAt.unique {body : List Stmt} {way : List Turn} {r r' : Return}
    (h : ReturnAt body way r) (h' : ReturnAt body way r') : r = r' := by
  induction h with
  | here => cases h'; rfl
  | next _ ih =>
    cases h' with
    | next rest => exact ih rest
  | enter _ block _ ih =>
    cases h' with
    | enter _ block' rest =>
      rw [block] at block'
      obtain rfl := Option.some.inj block'
      exact ih rest

/-- Ways lead on from a turn to where they led before. -/
theorem forall₂_turn {body body' : List Stmt} {turn : Turn} {ways : List (List Turn)}
    {rs : List Return} (h : List.Forall₂ (ReturnAt body) ways rs)
    (step : ∀ way r, ReturnAt body way r → ReturnAt body' (turn :: way) r) :
    List.Forall₂ (ReturnAt body') (ways.map (turn :: ·)) rs := by
  induction h with
  | nil => exact .nil
  | cons hr _ ih => exact .cons (step _ _ hr) ih

theorem nodup_turn {turn : Turn} {ways : List (List Turn)} (h : ways.Nodup) :
    (ways.map (turn :: ·)).Nodup := by
  refine List.Pairwise.map _ ?_ h
  intro way way' hne he
  exact hne (List.cons.inj he).2

/-- The ways into the blocks of a statement from the `k`th on. -/
theorem leadTo_blocks {s : Stmt} (ss : List Stmt) (hs : s.isScope = false)
    {bs : List (List Stmt)} {k : Nat} (hbs : s.blocks.drop k = bs)
    (ih : ∀ b ∈ bs, ∃ ways, LeadTo b (fun _ => True) ways (ownedReturnsOf b)) :
    ∃ ways, LeadTo (s :: ss) (fun way => ∃ i rest, way = .enter i :: rest ∧ k ≤ i) ways
        (bs.flatMap ownedReturnsOf) ∧
      ∀ way ∈ ways, ∃ i rest, way = .enter i :: rest ∧ k ≤ i := by
  induction bs generalizing k with
  | nil =>
    refine ⟨[], ⟨.nil, .nil, ?_⟩, by simp⟩
    rintro way r ⟨i, rest, rfl, hi⟩ h
    cases h with
    | enter _ block _ =>
      have hlen := List.drop_eq_nil_iff.mp hbs
      have hlt := (List.getElem?_eq_some_iff.mp block).1
      omega
  | cons b bs ihbs =>
    obtain ⟨first, hfirst⟩ := ih b (by simp)
    have hdrop : s.blocks.drop (k + 1) = bs := by
      rw [← List.drop_drop, hbs]
      rfl
    have hblock : s.blocks[k]? = some b := by
      have h0 := congrArg (fun l => l[0]?) hbs
      simpa using h0
    obtain ⟨later, hlater, hstart⟩ := ihbs hdrop fun b hb => ih b (by simp [hb])
    refine ⟨first.map (.enter k :: ·) ++ later, ⟨?_, ?_, ?_⟩, ?_⟩
    · refine List.nodup_append.mpr ⟨nodup_turn hfirst.nodup, hlater.nodup, ?_⟩
      rintro way hway way' hl rfl
      obtain ⟨rest, -, rfl⟩ := List.mem_map.mp hway
      obtain ⟨i, rest', he, hi⟩ := hstart _ hl
      cases he
      omega
    · rw [List.flatMap_cons]
      exact List.rel_append (forall₂_turn hfirst.each fun way r h => .enter hs hblock h) hlater.each
    · rintro way r ⟨i, rest, rfl, hi⟩ h
      rcases Nat.eq_or_lt_of_le hi with rfl | hlt
      · cases h with
        | enter _ block rest =>
          rw [hblock] at block
          obtain rfl := Option.some.inj block
          have hm := hfirst.all _ _ trivial rest
          exact List.mem_append_left _ (List.mem_map_of_mem hm)
      · exact List.mem_append_right _ (hlater.all _ _ ⟨i, rest, rfl, hlt⟩ h)
    · intro way hway
      rcases List.mem_append.mp hway with hf | hl
      · obtain ⟨rest, -, rfl⟩ := List.mem_map.mp hf
        exact ⟨k, rest, rfl, Nat.le_refl _⟩
      · obtain ⟨i, rest, rfl, hi⟩ := hstart way hl
        exact ⟨i, rest, rfl, by omega⟩

/-- The ways to the returns that the first statement of a body owns. -/
theorem leadTo_first {s : Stmt} (ss : List Stmt)
    (ih : ∀ b ∈ s.blocks, ∃ ways, LeadTo b (fun _ => True) ways (ownedReturnsOf b)) :
    ∃ ways, LeadTo (s :: ss) (·.head? ≠ some .next) ways (ownedReturns s) ∧
      ∀ way ∈ ways, way.head? ≠ some .next := by
  by_cases hr : ∃ span value, s = .return span value
  · obtain ⟨span, value, rfl⟩ := hr
    refine ⟨[[]], ⟨by simp, .cons .here .nil, ?_⟩, by simp⟩
    intro way r hway h
    cases h with
    | here => simp
    | next => exact absurd rfl hway
    | enter _ block => simp [Stmt.blocks] at block
  · have hne : ∀ span value, s ≠ .return span value := fun span value h => hr ⟨span, value, h⟩
    rw [ownedReturns_blocks hne]
    by_cases hs : s.isScope = true
    · rw [if_pos hs]
      refine ⟨[], ⟨.nil, .nil, ?_⟩, by simp⟩
      intro way r hway h
      cases h with
      | here => exact absurd rfl (hne _ _)
      | next => exact absurd rfl hway
      | enter inner => simp [hs] at inner
    · rw [if_neg hs]
      obtain ⟨ways, hways, hstart⟩ := leadTo_blocks ss (by simpa using hs) List.drop_zero ih
      refine ⟨ways, ⟨hways.nodup, hways.each, ?_⟩, ?_⟩
      · intro way r hway h
        cases h with
        | here => exact absurd rfl (hne _ _)
        | next => exact absurd rfl hway
        | enter inner block rest =>
          exact hways.all _ _ ⟨_, _, rfl, Nat.zero_le _⟩ (.enter inner block rest)
      · intro way hway
        obtain ⟨i, rest, rfl, -⟩ := hstart way hway
        simp

/-- The returns that a body owns are led to by ways through it, if those of its blocks are. -/
theorem leadTo_body {body : List Stmt}
    (ih : ∀ s ∈ body, ∀ b ∈ s.blocks, ∃ ways, LeadTo b (fun _ => True) ways (ownedReturnsOf b)) :
    ∃ ways, LeadTo body (fun _ => True) ways (ownedReturnsOf body) := by
  induction body with
  | nil =>
    refine ⟨[], .nil, .nil, ?_⟩
    intro way r _ h
    cases h
  | cons s ss ihss =>
    obtain ⟨first, hfirst, hstart⟩ := leadTo_first ss (ih s (by simp))
    obtain ⟨later, hlater⟩ := ihss fun x hx => ih x (by simp [hx])
    refine ⟨first ++ later.map (.next :: ·), ?_, ?_, ?_⟩
    · refine List.nodup_append.mpr ⟨hfirst.nodup, nodup_turn hlater.nodup, ?_⟩
      rintro way hf way' hl rfl
      obtain ⟨rest, -, rfl⟩ := List.mem_map.mp hl
      exact hstart _ hf rfl
    · exact List.rel_append hfirst.each (forall₂_turn hlater.each fun way r h => .next h)
    · intro way r _ h
      by_cases hway : way.head? = some .next
      · cases h with
        | here => cases hway
        | next rest =>
          have hm := hlater.all _ _ trivial rest
          exact List.mem_append_right _ (List.mem_map_of_mem hm)
        | enter => cases hway
      · exact List.mem_append_left _ (hfirst.all way r hway h)

/-- The ways to the returns of any body, one for each owned return. -/
theorem exists_leadTo (body : List Stmt) :
    ∃ ways, LeadTo body (fun _ => True) ways (ownedReturnsOf body) := by
  have hall : ∀ s : Stmt, ∀ b ∈ s.blocks, ∃ ways,
      LeadTo b (fun _ => True) ways (ownedReturnsOf b) := by
    intro s
    induction s using Stmt.inBlocks_induction with
    | step s ih => exact fun b hb => leadTo_body fun x hx => ih b hb x hx
  exact leadTo_body fun s _ => hall s

/-- Spans in order, each filled with others in order, give all of these in order. -/
theorem inOrder_flatMap {α β : Type} {f : α → Span} {g : α → List β} {k : β → Span}
    {lo hi : Nat} {xs : List α} (h : InOrder lo hi (xs.map f))
    (each : ∀ x ∈ xs, InOrder (f x).start (f x).stop ((g x).map k)) :
    InOrder lo hi ((xs.flatMap g).map k) := by
  induction xs generalizing lo with
  | nil => exact h
  | cons x xs ih =>
    obtain ⟨hlo, -, hxs⟩ := h
    have hfirst := (each x (by simp)).mono hlo (Nat.le_refl _)
    have hlater := ih hxs fun y hy => each y (by simp [hy])
    rw [List.flatMap_cons, List.map_append]
    exact hfirst.append hlater

structure Return.Placed (t : Text) (r : Return) : Prop where
  covers : r.span.Covers t
  value : ∀ v, r.value = some v → v.span.Covers t ∧ v.span.Inside r.span

/-- The owned returns of a statement in its place lie inside it, one after the other. -/
theorem ownedReturns_placed {t : Text} {s : Stmt} (h : s.Placed t) :
    InOrder s.span.start s.span.stop ((ownedReturns s).map Return.span) ∧
      ∀ r ∈ ownedReturns s, r.Placed t := by
  induction s using Stmt.inBlocks_induction with
  | step s ih =>
    have hblocks := h.blocks
    obtain ⟨hcovers, hvalue, -, -, hinner⟩ := h
    by_cases hr : ∃ span value, s = .return span value
    · obtain ⟨span, value, rfl⟩ := hr
      refine ⟨⟨Nat.le_refl _, hcovers.lt, Nat.le_refl _⟩, ?_⟩
      intro r hm
      obtain rfl := List.mem_singleton.mp hm
      exact ⟨hcovers, fun v hv => hvalue span v (by rw [← hv])⟩
    · rw [ownedReturns_blocks fun span value h => hr ⟨span, value, h⟩]
      by_cases hs : s.isScope = true
      · rw [if_pos hs]
        exact ⟨Nat.le_of_lt hcovers.lt, by simp⟩
      · rw [if_neg hs]
        have hflat : s.blocks.flatMap ownedReturnsOf = s.blocks.flatten.flatMap ownedReturns := by
          induction s.blocks with
          | nil => rfl
          | cons b bs ihb => simp [ihb, ownedReturnsOf_eq]
        have hin : ∀ x ∈ s.blocks.flatten,
            InOrder x.span.start x.span.stop ((ownedReturns x).map Return.span) ∧
              ∀ r ∈ ownedReturns x, r.Placed t := by
          intro x hx
          obtain ⟨b, hb, hxb⟩ := List.mem_flatten.mp hx
          exact ih b hb x hxb (hinner b hb x hxb)
        rw [hflat]
        refine ⟨inOrder_flatMap hblocks.order fun x hx => (hin x hx).1, ?_⟩
        intro r hm
        obtain ⟨x, hx, hm⟩ := List.mem_flatMap.mp hm
        exact (hin x hx).2 r hm

/-- So do those of a block. -/
theorem ownedReturnsOf_placed {t : Text} {lo hi : Nat} {b : List Stmt}
    (h : Block.Placed t lo hi b) : InOrder lo hi ((ownedReturnsOf b).map Return.span) ∧
      ∀ r ∈ ownedReturnsOf b, r.Placed t := by
  rw [ownedReturnsOf_eq]
  refine ⟨inOrder_flatMap h.order fun s hs => (ownedReturns_placed (h.each s hs)).1, ?_⟩
  intro r hm
  obtain ⟨s, hs, hm⟩ := List.mem_flatMap.mp hm
  exact (ownedReturns_placed (h.each s hs)).2 r hm

/-- The owned returns of a block of a text start one after the other. -/
theorem ownedReturnsOf_ordered {t : Text} {lo hi : Nat} {b : List Stmt}
    (h : Block.Placed t lo hi b) :
    (ownedReturnsOf b).Pairwise fun r r' => r.span.start < r'.span.start := by
  obtain ⟨horder, hplaced⟩ := ownedReturnsOf_placed h
  refine (List.pairwise_map.mp horder.pairwise).imp_of_mem fun {r r'} hr _ hle => ?_
  exact Nat.lt_of_lt_of_le (hplaced r hr).covers.lt hle

/-- The owned returns of a body are those that a way through its blocks leads to, each listed
once for the one way to it; in a body that stands in a text each starts after those before it, and
every body of a text that was parsed, at any depth, is one. -/
theorem ownedReturns_by_ways [CharacterNames] (body : List Stmt) :
    (∀ r, r ∈ ownedReturnsOf body ↔ ∃ way, ReturnAt body way r) ∧
      (∃ ways : List (List Turn), ways.Nodup ∧
        List.Forall₂ (ReturnAt body) ways (ownedReturnsOf body) ∧
        ∀ way r, ReturnAt body way r → way ∈ ways) ∧
      (∀ t lo hi, Block.Placed t lo hi body →
        (ownedReturnsOf body).Pairwise fun r r' => r.span.start < r'.span.start) ∧
      ∀ t ss, parse t = .ok ss → Stmt.HasBlock ss body →
        (ownedReturnsOf body).Pairwise fun r r' => r.span.start < r'.span.start := by
  obtain ⟨ways, hnodup, heach, hall⟩ := exists_leadTo body
  refine ⟨fun r => ⟨fun hr => ?_, ?_⟩, ⟨ways, hnodup, heach, fun way r => hall way r trivial⟩,
    fun t lo hi => ownedReturnsOf_ordered, ?_⟩
  · obtain ⟨i, hi, rfl⟩ := List.mem_iff_getElem.mp hr
    have hlen := heach.length_eq
    exact ⟨ways[i], List.Forall₂.get heach (by omega) hi⟩
  · rintro ⟨way, h⟩
    obtain ⟨i, hi, rfl⟩ := List.mem_iff_getElem.mp (hall way r trivial h)
    have hlen := heach.length_eq
    have hat := List.Forall₂.get heach hi (by omega)
    rw [h.unique hat]
    exact List.getElem_mem _
  · intro t ss hparse hbody
    obtain ⟨lo, hi, hplaced⟩ := (parse_placed hparse).1.block hbody
    exact ownedReturnsOf_ordered hplaced

/-- The body of a function with a return in a branch and one behind it. -/
theorem ownedReturns_by_ways_branch :
    ∃ ss body, parse "def f():\n if a: return\n return 1\n" = .ok ss ∧ Stmt.HasBlock ss body ∧
      (ownedReturnsOf body).map Return.span = [⟨16, 22⟩, ⟨24, 32⟩] ∧
      (ownedReturnsOf body).Pairwise fun r r' => r.span.start < r'.span.start := by
  let body : List Stmt := [.branch ⟨10, 22⟩ (.name ⟨13, 14⟩ "a") [.return ⟨16, 22⟩ none] [],
    .return ⟨24, 32⟩ (some (.constant ⟨31, 32⟩ (.int 1)))]
  let ss : List Stmt := [.function ⟨0, 32⟩
    ⟨false, "f", ⟨[], [], none, [], none⟩, [], none, []⟩ body]
  have hparse : parse "def f():\n if a: return\n return 1\n" = .ok ss := by rfl
  have hbody : Stmt.HasBlock ss body := .inner List.mem_cons_self List.mem_cons_self .self
  exact ⟨ss, body, hparse, hbody, rfl, (ownedReturns_by_ways body).2.2.2 _ ss hparse hbody⟩

end Pagewright
