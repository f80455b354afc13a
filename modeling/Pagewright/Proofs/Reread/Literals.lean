import Mathlib.Tactic.SplitIfs
import Pagewright.Proofs.Reread.Bare
import Pagewright.Proofs.Result

namespace Pagewright.Syntax

/-- The next character is the same at every offset. -/
theorem Rest.next?_again {t : Text} {offset : Nat} {c : Char} {r : Rest}
    (h : Rest.next? ⟨t, offset⟩ = some (c, r)) (offset' : Nat) :
    ∃ place, Rest.next? ⟨t, offset'⟩ = some (c, ⟨r.text, place⟩) ∧ r.text.length < t.length := by
  unfold Rest.next? at h ⊢
  split at h
  · cases h
  · rename_i cs _ heq
    obtain ⟨rfl, rfl⟩ := Prod.mk.inj (Option.some.inj h)
    obtain ⟨rfl, -⟩ := Rest.mk.inj heq
    exact ⟨offset' + 2, rfl, by simp only [List.length_cons]; omega⟩
  · rename_i d cs _ hne heq
    obtain ⟨rfl, rfl⟩ := Prod.mk.inj (Option.some.inj h)
    obtain ⟨rfl, -⟩ := Rest.mk.inj heq
    refine ⟨offset' + d.utf8Size, ?_, by simp⟩
    split
    · rename_i h'
      cases h'
    · rename_i cs' _ h'
      obtain ⟨h', -⟩ := Rest.mk.inj h'
      cases h'
      exact (hne _ rfl rfl).elim
    · rename_i h'
      obtain ⟨h', rfl⟩ := Rest.mk.inj h'
      cases h'
      rfl

theorem Rest.next?_none {t : Text} {offset : Nat} (h : Rest.next? ⟨t, offset⟩ = none) : t = [] := by
  unfold Rest.next? at h
  split at h
  · rename_i heq
    exact (Rest.mk.inj heq).1
  · cases h
  · cases h

namespace LiteralValue

variable {names : NameTable}

/-- A result at one place is had at every other one, up to the place behind it. -/
def Again {α : Type} (read : Rest → Except Fault (α × Rest)) : Prop :=
  ∀ ⦃t offset x r⦄, read ⟨t, offset⟩ = .ok (x, r) → ∀ offset', ∃ place,
    read ⟨t, offset'⟩ = .ok (x, ⟨r.text, place⟩) ∧ r.text.length ≤ t.length

theorem again_readCode (count : Nat) : Again (readCode count) := by
  intro t offset x r h offset'
  unfold readCode at h ⊢
  simp only [Rest.skip] at h ⊢
  split_ifs at h ⊢
  all_goals
    obtain ⟨rfl, rfl⟩ := Prod.mk.inj (Except.ok.inj h)
    exact ⟨_, rfl, by simp⟩

/-- A name of a character ends at the same brace wherever it stands. -/
theorem again_readNamed : Again (readNamed names) := by
  intro t offset x r h offset'
  unfold readNamed at h ⊢
  split at h
  · rename_i _ rest hopen
    obtain rfl : t = '\x7b' :: rest := hopen
    simp only at h ⊢
    cases hdrop : rest.drop (rest.takeWhile (· ≠ '\x7d')).length with
    | nil =>
      rw [hdrop] at h
      cases h
    | cons c after =>
      have hlen := congrArg List.length hdrop
      rw [List.length_drop, List.length_cons] at hlen
      simp only [hdrop] at h ⊢
      split_ifs at h ⊢
      cases hname : names (rest.takeWhile (· ≠ '\x7d')) with
      | none =>
        rw [hname] at h
        cases h
      | some d =>
        rw [hname] at h
        obtain ⟨rfl, rfl⟩ := Prod.mk.inj (Except.ok.inj h)
        exact ⟨_, rfl, by simp only [List.length_cons]; omega⟩
  · cases h

theorem again_single {read : Rest → Except Fault (Char × Rest)} (h : Again read) :
    Again fun r => (read r).map fun p => (([p.1], p.2) : Text × Rest) := by
  intro t offset x r hread offset'
  obtain ⟨⟨c, s⟩, hc, hx⟩ := map_eq_ok_iff.mp hread
  obtain ⟨rfl, rfl⟩ := Prod.mk.inj hx
  obtain ⟨place, hagain, hlen⟩ := h hc offset'
  exact ⟨place, by simp only [hagain]; rfl, hlen⟩

/-- An escape denotes the same wherever it stands. -/
theorem again_readEscape (isBytes : Bool) : Again (readEscape names isBytes) := by
  intro t offset x r h offset'
  unfold readEscape at h ⊢
  cases hnext : Rest.next? ⟨t, offset⟩ with
  | none =>
    rw [hnext] at h
    cases h
  | some p =>
    obtain ⟨c, u, place⟩ := p
    obtain ⟨place', hnext', hlen⟩ := Rest.next?_again hnext offset'
    rw [hnext] at h
    rw [hnext']
    simp only at h hlen ⊢
    have hcode {count : Nat} (h : (readCode count ⟨u, place⟩).map
        (fun p => (([p.1], p.2) : Text × Rest)) = .ok (x, r)) : ∃ place'',
        (readCode count ⟨u, place'⟩).map (fun p => (([p.1], p.2) : Text × Rest)) =
          .ok (x, ⟨r.text, place''⟩) ∧ r.text.length ≤ t.length := by
      obtain ⟨place'', hagain, hless⟩ := again_single (again_readCode count) h place'
      exact ⟨place'', hagain, by omega⟩
    split at h
    · obtain ⟨rfl, rfl⟩ := Prod.mk.inj (Except.ok.inj h)
      exact ⟨place', rfl, by simp only; omega⟩
    · split_ifs at h ⊢
      · obtain ⟨rfl, rfl⟩ := Prod.mk.inj (Except.ok.inj h)
        exact ⟨_, rfl, by simp [readOctal, Rest.skip]⟩
      · exact hcode h
      · exact hcode h
      · exact hcode h
      · obtain ⟨place'', hagain, hless⟩ := again_single again_readNamed h place'
        exact ⟨place'', hagain, by omega⟩
      · obtain ⟨rfl, rfl⟩ := Prod.mk.inj (Except.ok.inj h)
        exact ⟨_, rfl, by simp only; omega⟩
      · obtain ⟨rfl, rfl⟩ := Prod.mk.inj (Except.ok.inj h)
        exact ⟨_, rfl, by simp only; omega⟩

/-- A literal without fields has the same value everywhere. -/
theorem readPlain_again {raw isBytes : Bool} {fuel : Nat} {t v : Text} {offset : Nat}
    (h : readPlain names raw isBytes fuel ⟨t, offset⟩ = .ok v) (offset' : Nat) :
    readPlain names raw isBytes fuel ⟨t, offset'⟩ = .ok v := by
  induction fuel generalizing t v offset offset' with
  | zero => exact h
  | succ fuel ih =>
    unfold readPlain at h ⊢
    cases hnext : Rest.next? ⟨t, offset⟩ with
    | none =>
      obtain rfl := Rest.next?_none hnext
      exact h
    | some p =>
      obtain ⟨c, u, place⟩ := p
      obtain ⟨place', hnext', -⟩ := Rest.next?_again hnext offset'
      rw [hnext] at h
      rw [hnext']
      simp only at h ⊢
      split_ifs at h ⊢
      · obtain ⟨⟨cs, w, place₁⟩, hread, h⟩ := bind_eq_ok_iff.mp h
        obtain ⟨later, hlater, h⟩ := bind_eq_ok_iff.mp h
        obtain ⟨place₂, hread', -⟩ := again_readEscape isBytes hread place'
        exact bind_eq_ok_iff.mpr ⟨_, hread', bind_eq_ok_iff.mpr ⟨later, ih hlater place₂, h⟩⟩
      · obtain ⟨later, hlater, h⟩ := bind_eq_ok_iff.mp h
        exact bind_eq_ok_iff.mpr ⟨later, ih hlater place', h⟩

/-- A quoted part of a field ends at the same quote wherever it stands. -/
theorem again_readQuoted (quote : Char) (fuel : Nat) : ∀ {t offset x r},
    readQuoted quote fuel ⟨t, offset⟩ = .ok (x, r) → ∀ offset', ∃ place,
      readQuoted quote fuel ⟨t, offset'⟩ = .ok (x, ⟨r.text, place⟩) ∧
        x.length + r.text.length ≤ t.length := by
  induction fuel with
  | zero =>
    intro t offset x r h
    cases h
  | succ fuel ih =>
    intro t offset x r h offset'
    unfold readQuoted at h ⊢
    cases hnext : Rest.next? ⟨t, offset⟩ with
    | none =>
      rw [hnext] at h
      cases h
    | some p =>
      obtain ⟨c, u, place⟩ := p
      obtain ⟨place', hnext', hlen⟩ := Rest.next?_again hnext offset'
      rw [hnext] at h
      rw [hnext']
      simp only at h hlen ⊢
      split_ifs at h ⊢
      · obtain ⟨rfl, rfl⟩ := Prod.mk.inj (Except.ok.inj h)
        exact ⟨place', rfl, by simp only [List.length_singleton]; omega⟩
      · obtain ⟨⟨cs, w⟩, hread, h⟩ := bind_eq_ok_iff.mp h
        obtain ⟨rfl, rfl⟩ := Prod.mk.inj (Except.ok.inj h)
        obtain ⟨place'', hread', hless⟩ := ih hread place'
        refine ⟨place'', bind_eq_ok_iff.mpr ⟨_, hread', rfl⟩, ?_⟩
        simp only [List.length_cons]
        omega

theorem again_readConversion : Again readConversion := by
  intro t offset x r h offset'
  unfold readConversion at h ⊢
  cases hnext : Rest.next? ⟨t, offset⟩ with
  | none =>
    rw [hnext] at h
    cases h
  | some p =>
    obtain ⟨c, u, place⟩ := p
    obtain ⟨place', hnext', hlen⟩ := Rest.next?_again hnext offset'
    rw [hnext] at h
    rw [hnext']
    simp only at h hlen ⊢
    split_ifs at h ⊢
    obtain ⟨rfl, rfl⟩ := Prod.mk.inj (Except.ok.inj h)
    exact ⟨place', rfl, by simp only; omega⟩

/-- Fields of fewer than `n` characters are read again by another reader. -/
def FieldsAgain (n : Nat) (field field' : FieldReader) : Prop :=
  ∀ ⦃text offset e⦄, text.length + 2 ≤ n → field text offset = .ok e → ∀ offset', ∃ e',
    field' text offset' = .ok e' ∧ e'.bare = e.bare

/-- Pieces that are read from at most `n` characters are read again. -/
def PiecesAgain (n : Nat) (read read' : Rest → Except Fault (List Expr × Rest)) : Prop :=
  ∀ ⦃t offset ps r⦄, read ⟨t, offset⟩ = .ok (ps, r) → t.length ≤ n → ∀ offset', ∃ ps' place,
    read' ⟨t, offset'⟩ = .ok (ps', ⟨r.text, place⟩) ∧ ps'.map Expr.bare = ps.map Expr.bare ∧
      r.text.length ≤ t.length

section Fields

variable {n : Nat} {field field' : FieldReader} {raw : Bool} {depth start start' fuel : Nat}
  {read read' : Rest → Except Fault (List Expr × Rest)} {t u text : Text} {offset place : Nat}
  {ps : List Expr} {r : Rest} {s : FieldState} {spec' : Option (List Expr)}

/-- What is read behind some characters. -/
theorem PiecesAgain.behind {m : Nat} (h : PiecesAgain m read read') (hu : u.length ≤ m)
    (hlen : u.length ≤ t.length) (hread : read ⟨u, place⟩ = .ok (ps, r)) (place' : Nat) :
    ∃ ps' place'', read' ⟨u, place'⟩ = .ok (ps', ⟨r.text, place''⟩) ∧
      ps'.map Expr.bare = ps.map Expr.bare ∧ r.text.length ≤ t.length := by
  obtain ⟨ps', place'', hagain, hps, hless⟩ := h hread hu place'
  exact ⟨ps', place'', hagain, hps, by omega⟩

def flushed (text : Text) (place : Nat) (later : List Expr) : List Expr :=
  if text.isEmpty then later else .constant ⟨place, place⟩ (.text text) :: later

theorem flushed_eq {later : List Expr} : (if text.isEmpty then later else
    .constant ⟨place, place⟩ (.text text) :: later) = flushed text place later := rfl

theorem bare_flushed {later later' : List Expr} {place place' : Nat}
    (h : later'.map Expr.bare = later.map Expr.bare) :
    (flushed text place' later').map Expr.bare = (flushed text place later).map Expr.bare := by
  unfold flushed
  split
  · exact h
  · simp [Expr.bare, h]

/-- A finished field gives the same pieces if its expression is read again. -/
theorem finish_again (start' stop' : Nat) (hfield : FieldsAgain n field field') (hlen : s.expression.length + 2 ≤ n)
    (hspec : spec'.map (List.map Expr.bare) = s.spec.map (List.map Expr.bare)) {stop : Nat}
    (h : s.finish field start stop = .ok ps) : ∃ ps',
      FieldState.finish { s with spec := spec' } field' start' stop' = .ok ps' ∧
        ps'.map Expr.bare = ps.map Expr.bare := by
  have hnone : spec'.isNone = s.spec.isNone := by
    rw [← Option.isNone_map, hspec, Option.isNone_map]
  have hjoined (span span' : Span) : (spec'.map fun pieces => Expr.joined span' pieces).map Expr.bare =
      (s.spec.map fun pieces => Expr.joined span pieces).map Expr.bare := by
    have hmap (o : Option (List Expr)) (span : Span) :
        (o.map fun pieces => Expr.joined span pieces).map Expr.bare =
          (o.map (List.map Expr.bare)).map (Expr.joined .nowhere) := by
      cases o <;> simp [Expr.bare, bareAll_eq]
    rw [hmap, hmap, hspec]
  unfold FieldState.finish at h ⊢
  cases hvalue : field s.expression start with
  | error cause =>
    rw [hvalue] at h
    cases h
  | ok value =>
    obtain ⟨value', hvalue', hbare⟩ := hfield hlen hvalue start'
    rw [hvalue] at h
    simp only at h ⊢
    rw [hvalue']
    simp only [hnone]
    split_ifs at h ⊢
    all_goals
      obtain rfl := Except.ok.inj h
      refine ⟨_, rfl, ?_⟩
      simp only [List.map_cons, List.map_nil, Expr.bare, bare?_eq, hbare,
        hjoined ⟨start, stop⟩ ⟨start', stop'⟩]

theorem close_again (spec' : Option (List Expr)) (offset' : Nat) {opened closed : Char} {offset : Nat}
    {s₁ : FieldState}
    (h : s.close opened closed offset = .ok s₁) :
    FieldState.close { s with spec := spec' } opened closed offset' = .ok { s₁ with spec := spec' } ∧
      s₁.expression.length = s.expression.length + 1 ∧ s₁.spec = s.spec := by
  unfold FieldState.close at h ⊢
  split at h
  · cases h
  · rename_i b bs hb
    simp only [hb]
    split_ifs at h ⊢
    obtain rfl := Except.ok.inj h
    exact ⟨rfl, by simp [FieldState.push], rfl⟩

/-- One more step of the reading of pieces. -/
theorem readPieces_again (hfield : ∀ depth s spec' start start',
      spec'.map (List.map Expr.bare) = s.spec.map (List.map Expr.bare) →
      PiecesAgain (n - s.expression.length - 1) (readField names field raw depth start fuel s)
        (readField names field' raw depth start' fuel { s with spec := spec' }))
    (hpieces : ∀ depth text, PiecesAgain n (readPieces names field raw depth fuel text)
      (readPieces names field' raw depth fuel text)) (depth : Nat) (text : Text) :
    PiecesAgain n (readPieces names field raw depth (fuel + 1) text)
      (readPieces names field' raw depth (fuel + 1) text) := by
  intro t offset ps r h hn offset'
  unfold readPieces at h ⊢
  cases hnext : Rest.next? ⟨t, offset⟩ with
  | none =>
    obtain rfl := Rest.next?_none hnext
    obtain ⟨rfl, rfl⟩ := Prod.mk.inj (Except.ok.inj h)
    exact ⟨_, offset', rfl, bare_flushed rfl, Nat.le_refl _⟩
  | some p =>
    obtain ⟨c, u, place⟩ := p
    obtain ⟨place', hnext', hlen⟩ := Rest.next?_again hnext offset'
    rw [hnext] at h
    rw [hnext']
    simp only [Rest.skip, flushed_eq] at h hlen ⊢
    have hdrop : (u.drop 1).length ≤ u.length := by simp
    split_ifs at h ⊢
    · exact (hpieces _ _).behind (by omega) (by omega) h _
    · obtain ⟨⟨found, w, place₁⟩, hread, h⟩ := bind_eq_ok_iff.mp h
      obtain ⟨⟨later, z⟩, hlater, h⟩ := bind_eq_ok_iff.mp h
      obtain ⟨rfl, rfl⟩ := Prod.mk.inj (Except.ok.inj h)
      obtain ⟨found', place₂, hread', hfound, hw⟩ := hfield depth .start none place place' rfl hread
        (by simp only [FieldState.start, List.length_nil]; omega) place'
      simp only at hw
      obtain ⟨later', place₃, hlater', hbare, hz⟩ :=
        (hpieces depth []).behind (by omega) (by omega : w.length ≤ t.length) hlater place₂
      refine ⟨_, place₃, bind_eq_ok_iff.mpr ⟨_, hread', bind_eq_ok_iff.mpr ⟨_, hlater', rfl⟩⟩, ?_, hz⟩
      exact bare_flushed (by rw [List.map_append, List.map_append, hfound, hbare])
    · obtain ⟨rfl, rfl⟩ := Prod.mk.inj (Except.ok.inj h)
      exact ⟨_, offset', rfl, bare_flushed rfl, Nat.le_refl _⟩
    · exact (hpieces _ _).behind (by omega) (by omega) h _
    · exact (hpieces _ _).behind (by omega) (by omega) h _
    · obtain ⟨⟨cs, w, place₁⟩, hread, h⟩ := bind_eq_ok_iff.mp h
      obtain ⟨place₂, hread', hw⟩ := again_readEscape false hread place'
      simp only at hw
      obtain ⟨ps', place₃, hlater, hps, hless⟩ :=
        (hpieces depth (text ++ cs)).behind (by omega) (by omega : w.length ≤ t.length) h place₂
      exact ⟨ps', place₃, bind_eq_ok_iff.mpr ⟨_, hread', hlater⟩, hps, hless⟩
    · exact (hpieces _ _).behind (by omega) (by omega) h _

/-- One step of a format gives the same if shorter pieces and formats do. -/
theorem readSpec_again
    (hpieces : ∀ depth text, PiecesAgain n (readPieces names field raw depth fuel text)
      (readPieces names field' raw depth fuel text))
    (hspec : ∀ depth text, PiecesAgain n (readSpec names field raw depth fuel text)
      (readSpec names field' raw depth fuel text)) (depth : Nat) (text : Text) :
    PiecesAgain n (readSpec names field raw depth (fuel + 1) text)
      (readSpec names field' raw depth (fuel + 1) text) := by
  intro t offset ps r h hn offset'
  unfold readSpec at h ⊢
  cases hnext : Rest.next? ⟨t, offset⟩ with
  | none =>
    obtain rfl := Rest.next?_none hnext
    obtain ⟨rfl, rfl⟩ := Prod.mk.inj (Except.ok.inj h)
    exact ⟨_, offset', rfl, bare_flushed rfl, Nat.le_refl _⟩
  | some p =>
    obtain ⟨c, u, place⟩ := p
    obtain ⟨place', hnext', hlen⟩ := Rest.next?_again hnext offset'
    rw [hnext] at h
    rw [hnext']
    simp only [flushed_eq] at h hlen ⊢
    split_ifs at h ⊢
    · obtain ⟨⟨found, w, place₁⟩, hread, h⟩ := bind_eq_ok_iff.mp h
      obtain ⟨⟨later, z⟩, hlater, h⟩ := bind_eq_ok_iff.mp h
      obtain ⟨rfl, rfl⟩ := Prod.mk.inj (Except.ok.inj h)
      obtain ⟨found', place₂, hread', hfound, hw⟩ := hpieces _ _ hread hn offset'
      simp only at hw
      obtain ⟨later', place₃, hlater', hbare, hz⟩ :=
        (hspec depth []).behind (by omega) hw hlater place₂
      refine ⟨_, place₃, bind_eq_ok_iff.mpr ⟨_, hread', bind_eq_ok_iff.mpr ⟨_, hlater', rfl⟩⟩, ?_, hz⟩
      exact bare_flushed (by rw [List.map_append, List.map_append, hfound, hbare])
    · obtain ⟨rfl, rfl⟩ := Prod.mk.inj (Except.ok.inj h)
      exact ⟨_, offset', rfl, bare_flushed rfl, Nat.le_refl _⟩
    · exact (hspec _ _).behind (by omega) (by omega) h _

/-- One step of a field gives the same wherever the field starts, if shorter fields and formats do.
-/
theorem readField_again (hagain : FieldsAgain n field field')
    (hfield : ∀ depth s spec' start start',
      spec'.map (List.map Expr.bare) = s.spec.map (List.map Expr.bare) →
      PiecesAgain (n - s.expression.length - 1) (readField names field raw depth start fuel s)
        (readField names field' raw depth start' fuel { s with spec := spec' }))
    (hreads : ∀ depth text, PiecesAgain n (readSpec names field raw depth fuel text)
      (readSpec names field' raw depth fuel text)) (depth : Nat) (s : FieldState)
    (spec' : Option (List Expr)) (start start' : Nat)
    (hspec : spec'.map (List.map Expr.bare) = s.spec.map (List.map Expr.bare)) :
    PiecesAgain (n - s.expression.length - 1) (readField names field raw depth start (fuel + 1) s)
      (readField names field' raw depth start' (fuel + 1) { s with spec := spec' }) := by
  intro t offset ps r h hn offset'
  unfold readField at h ⊢
  cases hnext : Rest.next? ⟨t, offset⟩ with
  | none =>
    rw [hnext] at h
    cases h
  | some p =>
    obtain ⟨c, u, place⟩ := p
    obtain ⟨place', hnext', hlen⟩ := Rest.next?_again hnext offset'
    rw [hnext] at h
    rw [hnext']
    simp only [Rest.skip] at h hlen ⊢
    have hdrop : (u.drop 1).length ≤ u.length := by simp
    have hpush (d : Char) : (s.push d).expression.length = s.expression.length + 1 := by
      simp [FieldState.push]
    by_cases hc : (c = '!' ∨ c = '=' ∨ c = '<' ∨ c = '>') ∧ (decide (u.head? = some '=')) = true
    · rw [if_pos hc] at h ⊢
      have hn' : (u.drop 1).length ≤ n - ((s.push c).push '=').expression.length - 1 := by
        have hpos : (u.drop 1).length < u.length := by
          cases u with
          | nil => simp at hc
          | cons d ds => simp
        simp only [FieldState.push, List.length_append, List.length_singleton]
        omega
      exact (hfield depth ((s.push c).push '=') spec' start start' hspec).behind hn' (by omega) h _
    rw [if_neg hc] at h ⊢
    clear hc
    by_cases hc : c = '!' ∧ s.brackets.isEmpty = true
    · rw [if_pos hc] at h ⊢
      split at h
      · cases h
      · rename_i hne
        rw [if_neg hne]
        obtain ⟨⟨conversion, w, place₁⟩, hread, h⟩ := bind_eq_ok_iff.mp h
        obtain ⟨place₂, hread', hw⟩ := again_readConversion hread place'
        simp only at hw
        obtain ⟨ps', place₃, hlater, hps, hless⟩ := (hfield depth
          { s with conversion := some conversion } spec' start start' hspec).behind
          (by simp only; omega) (by omega : w.length ≤ t.length) h place₂
        exact ⟨ps', place₃, bind_eq_ok_iff.mpr ⟨_, hread', hlater⟩, hps, hless⟩
    rw [if_neg hc] at h ⊢
    clear hc
    by_cases hc : c = '=' ∧ s.brackets.isEmpty = true
    · rw [if_pos hc] at h ⊢
      exact (hfield depth { s with showsItself := true } spec' start start' hspec).behind
        (by simp only; omega) (by omega) h _
    rw [if_neg hc] at h ⊢
    clear hc
    by_cases hc : c = ':' ∧ s.brackets.isEmpty = true
    · rw [if_pos hc] at h ⊢
      obtain ⟨⟨pieces, w, place₁⟩, hread, h⟩ := bind_eq_ok_iff.mp h
      obtain ⟨pieces', place₂, hread', hpieces, hw⟩ := hreads depth [] hread (by omega) place'
      simp only at hw
      obtain ⟨ps', place₃, hlater, hps, hless⟩ := (hfield depth { s with spec := some pieces }
        (some pieces') start start' (by simp [hpieces])).behind (by simp only; omega)
        (by omega : w.length ≤ t.length) h place₂
      exact ⟨ps', place₃, bind_eq_ok_iff.mpr ⟨_, hread', hlater⟩, hps, hless⟩
    rw [if_neg hc] at h ⊢
    clear hc
    have hclose {opened : Char} (h : (do
        let s₁ ← s.close opened c place
        readField names field raw depth start fuel s₁ ⟨u, place⟩) = .ok (ps, r)) : ∃ ps' place₁, (do
        let s₁ ← FieldState.close { s with spec := spec' } opened c place'
        readField names field' raw depth start' fuel s₁ ⟨u, place'⟩) = .ok (ps', ⟨r.text, place₁⟩) ∧
          ps'.map Expr.bare = ps.map Expr.bare ∧ r.text.length ≤ t.length := by
      obtain ⟨s₁, hs₁, h⟩ := bind_eq_ok_iff.mp h
      obtain ⟨hclose, hlength, hspec₁⟩ := close_again spec' place' hs₁
      obtain ⟨ps', place₃, hlater, hps, hless⟩ := (hfield depth s₁ spec' start start'
        (by rw [hspec₁, hspec])).behind (by omega)
        (by omega : u.length ≤ t.length) h place'
      exact ⟨ps', place₃, bind_eq_ok_iff.mpr ⟨_, hclose, hlater⟩, hps, hless⟩
    by_cases hc : c = '(' ∨ c = '[' ∨ c = '\x7b'
    · rw [if_pos hc] at h ⊢
      exact (hfield depth { s.push c with brackets := c :: s.brackets } spec' start start'
        hspec).behind (by simp only [hpush]; omega) (by omega) h _
    rw [if_neg hc] at h ⊢
    clear hc
    by_cases hc : c = ')'
    · rw [if_pos hc] at h ⊢
      exact hclose h
    rw [if_neg hc] at h ⊢
    clear hc
    by_cases hc : c = ']'
    · rw [if_pos hc] at h ⊢
      exact hclose h
    rw [if_neg hc] at h ⊢
    clear hc
    by_cases hc : c = '\x7d'
    · rw [if_pos hc] at h ⊢
      split at h
      · rename_i hb
        rw [if_pos hb]
        exact hclose h
      · rename_i hb
        rw [if_neg hb]
        split at h
        · cases h
        · rename_i hne
          rw [if_neg hne]
          obtain ⟨found, hfinish, h⟩ := bind_eq_ok_iff.mp h
          obtain ⟨rfl, rfl⟩ := Prod.mk.inj (Except.ok.inj h)
          obtain ⟨found', hfinish', hfound⟩ := finish_again start' place'
            hagain (by omega) hspec hfinish
          exact ⟨found', place', bind_eq_ok_iff.mpr ⟨_, hfinish', rfl⟩, hfound, by simp only; omega⟩
    rw [if_neg hc] at h ⊢
    clear hc
    by_cases hc : isQuote c = true
    · rw [if_pos hc] at h ⊢
      obtain ⟨⟨found, w, place₁⟩, hread, h⟩ := bind_eq_ok_iff.mp h
      obtain ⟨place₂, hread', hw⟩ := again_readQuoted _ _ hread place'
      simp only at hw
      obtain ⟨ps', place₃, hlater, hps, hless⟩ := (hfield depth
        { s with expression := s.expression ++ c :: found } spec' start start' hspec).behind
        (by simp only [List.length_append, List.length_cons]; omega)
        (by omega : w.length ≤ t.length) h place₂
      exact ⟨ps', place₃, bind_eq_ok_iff.mpr ⟨_, hread', hlater⟩, hps, hless⟩
    rw [if_neg hc] at h ⊢
    clear hc
    by_cases hc : c = ' ' ∧ s.showsItself = true
    · rw [if_pos hc] at h ⊢
      exact (hfield depth { s with trailing := s.trailing ++ [c] } spec' start start' hspec).behind
        (by simp only; omega) (by omega) h _
    rw [if_neg hc] at h ⊢
    clear hc
    by_cases hc : c = '\\'
    · rw [if_pos hc] at h
      cases h
    rw [if_neg hc] at h ⊢
    clear hc
    by_cases hc : s.showsItself = true
    · rw [if_pos hc] at h
      cases h
    rw [if_neg hc] at h ⊢
    exact (hfield depth (s.push c) spec' start start' hspec).behind (by simp only [hpush]; omega)
      (by omega) h _

/-- The pieces of a format literal are read again if the expressions of its fields are. -/
theorem pieces_again (hagain : FieldsAgain n field field') (fuel : Nat) :
    (∀ depth text, PiecesAgain n (readPieces names field raw depth fuel text)
      (readPieces names field' raw depth fuel text)) ∧
    (∀ depth s spec' start start', spec'.map (List.map Expr.bare) = s.spec.map (List.map Expr.bare) →
      PiecesAgain (n - s.expression.length - 1) (readField names field raw depth start fuel s)
        (readField names field' raw depth start' fuel { s with spec := spec' })) ∧
    (∀ depth text, PiecesAgain n (readSpec names field raw depth fuel text)
      (readSpec names field' raw depth fuel text)) := by
  induction fuel with
  | zero =>
    refine ⟨fun depth text t offset ps r h => ?_, fun depth s spec' start start' _ t offset ps r h => ?_,
      fun depth text t offset ps r h => ?_⟩
    · unfold readPieces at h
      cases h
    · unfold readField at h
      cases h
    · unfold readSpec at h
      cases h
  | succ fuel ih =>
    obtain ⟨hpieces, hfield, hspec⟩ := ih
    exact ⟨readPieces_again hfield hpieces, readField_again hagain hfield hspec,
      readSpec_again hpieces hspec⟩

end Fields

section Parts

variable {n : Nat} {field field' : FieldReader}

/-- What is no text has no text as its bare form. -/
theorem bare_ne_text {e : Expr} (he : ∀ s a, e ≠ .constant s (.text a)) (s : Span) (a : Text) :
    e.bare ≠ .constant s (.text a) := by
  cases e with
  | constant s' v =>
    intro h
    obtain ⟨-, rfl⟩ := Expr.constant.inj (by simpa [Expr.bare] using h)
    exact he s' a rfl
  | lambda s' ps body => simp [bare_lambda]
  | _ => simp [Expr.bare]

theorem joinTexts_other {e : Expr} (he : ∀ s a, e ≠ .constant s (.text a)) (es : List Expr) :
    joinTexts (e :: es) = e :: joinTexts es := by
  rw [joinTexts]
  exact he

theorem joinTexts_bare (ps : List Expr) :
    (joinTexts ps).map Expr.bare = joinTexts (ps.map Expr.bare) := by
  fun_induction joinTexts ps with
  | case1 s a rest b s' later hrest ih =>
    simp only [List.map_cons, Expr.bare, joinTexts]
    rw [← ih, hrest]
    simp [Expr.bare]
  | case2 s a rest hrest ih =>
    simp only [List.map_cons, Expr.bare, joinTexts]
    rw [← ih]
    split
    · rename_i s' b later heq
      obtain ⟨e, es, hes, he, -⟩ := List.map_eq_cons_iff.mp heq
      by_cases htext : ∃ s a, e = .constant s (.text a)
      · obtain ⟨s'', b', rfl⟩ := htext
        exact absurd hes (hrest s'' b' es)
      · exact absurd he (bare_ne_text (by simpa using htext) _ _)
    · rfl
  | case3 e rest he ih =>
    rw [List.map_cons, List.map_cons, joinTexts_other (bare_ne_text he), ih]
  | case4 => rfl

theorem plainValue_again {p p' : Part} (hp : p'.literal = p.literal) {t : Text}
    (h : p.plainValue names = .ok t) : p'.plainValue names = .ok t := by
  unfold Part.plainValue at h ⊢
  rw [hp]
  have hinner : p'.inner = ⟨p.inner.text, p'.inner.offset⟩ := by simp [Part.inner, hp]
  rw [hinner]
  exact readPlain_again h _

/-- A literal that is written the same has the same pieces. -/
theorem Part.pieces_again (hagain : FieldsAgain n field field') {p p' : Part}
    (hp : p'.literal = p.literal) (hn : p.literal.content.length ≤ n) {ps : List Expr}
    (h : p.pieces names field = .ok ps) : ∃ ps', p'.pieces names field' = .ok ps' ∧
      ps'.map Expr.bare = ps.map Expr.bare := by
  have hinner : p'.inner = ⟨p.inner.text, p'.inner.offset⟩ := by simp [Part.inner, hp]
  unfold Part.pieces at h ⊢
  rw [hp]
  split at h
  · rename_i hkind
    rw [if_pos hkind, hinner]
    obtain ⟨⟨found, r⟩, hread, h⟩ := bind_eq_ok_iff.mp h
    obtain rfl := Except.ok.inj h
    obtain ⟨found', place, hread', hfound, -⟩ := (LiteralValue.pieces_again hagain _).1 _ _ hread hn
      p'.inner.offset
    exact ⟨found', bind_eq_ok_iff.mpr ⟨_, hread', rfl⟩, hfound⟩
  · rename_i hkind
    rw [if_neg hkind]
    obtain ⟨t, hvalue, h⟩ := bind_eq_ok_iff.mp h
    obtain rfl := Except.ok.inj h
    exact ⟨_, bind_eq_ok_iff.mpr ⟨t, plainValue_again hp hvalue, rfl⟩, by simp [Expr.bare]⟩

theorem plainValues_again {ps ps' : List Part} (hps : ps'.map Part.literal = ps.map Part.literal)
    {ts : List Text} (h : ps.mapM (Part.plainValue names) = .ok ts) :
    ps'.mapM (Part.plainValue names) = .ok ts := by
  induction ps generalizing ps' ts with
  | nil =>
    obtain rfl : ps' = [] := by simpa using hps
    exact h
  | cons p ps ih =>
    obtain ⟨p', later, rfl, hp, hlater⟩ := List.map_eq_cons_iff.mp hps
    rw [List.mapM_cons] at h ⊢
    obtain ⟨t, ht, h⟩ := bind_eq_ok_iff.mp h
    obtain ⟨ts', hts, h⟩ := bind_eq_ok_iff.mp h
    exact bind_eq_ok_iff.mpr ⟨t, plainValue_again hp ht, bind_eq_ok_iff.mpr ⟨ts', ih hlater hts, h⟩⟩

/-- The pieces of neighbouring literals are given again, one literal at a time. -/
theorem allPieces_again (hagain : FieldsAgain n field field') {ps ps' : List Part}
    (hps : ps'.map Part.literal = ps.map Part.literal)
    (hn : ∀ p ∈ ps, p.literal.content.length ≤ n) {found : List (List Expr)}
    (h : ps.mapM (Part.pieces names field) = .ok found) : ∃ found',
      ps'.mapM (Part.pieces names field') = .ok found' ∧
        found'.flatten.map Expr.bare = found.flatten.map Expr.bare := by
  induction ps generalizing ps' found with
  | nil =>
    obtain rfl : ps' = [] := by simpa using hps
    exact ⟨found, h, rfl⟩
  | cons p ps ih =>
    obtain ⟨p', later, rfl, hp, hlater⟩ := List.map_eq_cons_iff.mp hps
    rw [List.mapM_cons] at h ⊢
    obtain ⟨first, hfirst, h⟩ := bind_eq_ok_iff.mp h
    obtain ⟨rest, hrest, h⟩ := bind_eq_ok_iff.mp h
    obtain rfl := Except.ok.inj h
    obtain ⟨first', hfirst', hbare⟩ := Part.pieces_again hagain hp (hn p (by simp)) hfirst
    obtain ⟨rest', hrest', hflat⟩ := ih hlater (fun q hq => hn q (by simp [hq])) hrest
    refine ⟨first' :: rest', ?_, ?_⟩
    · exact bind_eq_ok_iff.mpr ⟨_, hfirst', bind_eq_ok_iff.mpr ⟨_, hrest', rfl⟩⟩
    · simp only [List.flatten_cons, List.map_append, hbare, hflat]

/-- Neighbouring literals have the same value wherever they stand. -/
theorem ofParts_again (hagain : FieldsAgain n field field') {first first' : Part}
    {rest rest' : List Part} (hfirst : first'.literal = first.literal)
    (hrest : rest'.map Part.literal = rest.map Part.literal)
    (hn : ∀ p ∈ first :: rest, p.literal.content.length ≤ n) {e : Expr}
    (h : ofParts names field first rest = .ok e) :
    ∃ e', ofParts names field' first' rest' = .ok e' ∧ e'.bare = e.bare := by
  have hparts : (first' :: rest').map Part.literal = (first :: rest).map Part.literal := by
    rw [List.map_cons, List.map_cons, hfirst, hrest]
  have hall : (first' :: rest').all (·.literal.kind = .bytes) =
      (first :: rest).all (·.literal.kind = .bytes) := by
    have hmap (ps : List Part) : ps.all (fun p => p.literal.kind = .bytes) =
        (ps.map Part.literal).all (·.kind = .bytes) := by rw [List.all_map]; rfl
    rw [hmap, hmap, hparts]
  have hany (kind : LiteralKind) : (first' :: rest').any (·.literal.kind = kind) =
      (first :: rest).any (·.literal.kind = kind) := by
    have hmap (ps : List Part) : ps.any (fun p => p.literal.kind = kind) =
        (ps.map Part.literal).any (·.kind = kind) := by rw [List.any_map]; rfl
    rw [hmap, hmap, hparts]
  unfold ofParts at h ⊢
  simp only [hall, hany] at h ⊢
  split at h
  · rename_i hbytes
    rw [if_pos hbytes]
    obtain ⟨ts, hts, h⟩ := bind_eq_ok_iff.mp h
    obtain rfl := Except.ok.inj h
    exact ⟨_, bind_eq_ok_iff.mpr ⟨ts, plainValues_again hparts hts, rfl⟩, by simp [Expr.bare]⟩
  · rename_i hbytes
    rw [if_neg hbytes]
    split at h
    · cases h
    · rename_i hmixed
      rw [if_neg hmixed]
      split at h
      · rename_i hformat
        rw [if_pos hformat]
        obtain ⟨found, hfound, h⟩ := bind_eq_ok_iff.mp h
        obtain rfl := Except.ok.inj h
        obtain ⟨found', hfound', hbare⟩ := allPieces_again hagain hparts hn hfound
        refine ⟨_, bind_eq_ok_iff.mpr ⟨_, hfound', rfl⟩, ?_⟩
        simp only [Expr.bare, bareAll_eq, joinTexts_bare, hbare]
      · rename_i hplain
        rw [if_neg hplain]
        obtain ⟨ts, hts, h⟩ := bind_eq_ok_iff.mp h
        obtain rfl := Except.ok.inj h
        exact ⟨_, bind_eq_ok_iff.mpr ⟨ts, plainValues_again hparts hts, rfl⟩, by simp [Expr.bare]⟩

end Parts

end LiteralValue
end Pagewright.Syntax
