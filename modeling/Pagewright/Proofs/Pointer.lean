import Mathlib.Data.List.Basic
import Mathlib.Data.Option.Basic
import Pagewright.Pointer
import Pagewright.Proofs.Text.Runs
import Pagewright.Proofs.Text.Words

namespace Pagewright.Pointer

open Text (IsSpace IsRun)

/-- An ASCII identifier. -/
def IsBinding (t : Text) : Prop :=
  (∃ c ∈ t.head?, c.isAlpha = true ∨ c = '_') ∧ ∀ c ∈ t, c.isAlphanum = true ∨ c = '_'

/-- A text that can stand in front of the colon of a pointer. -/
def IsPath (t : Text) : Prop :=
  t ≠ [] ∧ ∀ c ∈ t, Text.isBlank c = false ∧ c ≠ ':'

structure Pieces where
  lead : Text
  opened : Text
  named : Text
  path : Text
  behind : Text
  before : Text
  binding : Text
  closing : Text
  rest : Text

namespace Pieces

def target (s : Pieces) : Text :=
  s.before ++ (s.binding ++ (s.closing ++ ("-->".toList ++ s.rest)))

def place (s : Pieces) : Text :=
  s.named ++ (s.path ++ (s.behind ++ (":".toList ++ s.target)))

def line (s : Pieces) : Text :=
  s.lead ++ ("<!--".toList ++ (s.opened ++ ("point".toList ++ s.place)))

/-- Blanks stand where blanks may stand, at least one behind the word, and the parts between them
are a path and a binding. -/
structure IsSound (s : Pieces) : Prop where
  lead : IsSpace s.lead
  opened : IsSpace s.opened
  named : IsSpace s.named ∧ s.named ≠ []
  path : IsPath s.path
  behind : IsSpace s.behind
  before : IsSpace s.before
  binding : IsBinding s.binding
  closing : IsSpace s.closing

end Pieces

section Kinds

variable {c : Char} {t : Text}

theorem isPathPart_iff : isPathPart c = true ↔ Text.isBlank c = false ∧ c ≠ ':' := by
  simp [isPathPart]

theorem isBindingPart_iff : isBindingPart c = true ↔ c.isAlphanum = true ∨ c = '_' := by
  simp [isBindingPart]

theorem isBindingStart_iff : isBindingStart c = true ↔ c.isAlpha = true ∨ c = '_' := by
  simp [isBindingStart]

theorem toNat_of_isAlphanum (h : c.isAlphanum = true) :
    65 ≤ c.toNat ∧ c.toNat ≤ 90 ∨ 97 ≤ c.toNat ∧ c.toNat ≤ 122 ∨
      48 ≤ c.toNat ∧ c.toNat ≤ 57 := by
  have hrange {lo hi : Char} (hlo : lo.val ≤ c.val) (hhi : c.val ≤ hi.val) :
      lo.toNat ≤ c.toNat ∧ c.toNat ≤ hi.toNat :=
    ⟨UInt32.le_iff_toNat_le.mp hlo, UInt32.le_iff_toNat_le.mp hhi⟩
  rcases (Bool.or_eq_true _ _).mp h with h | h
  · rcases (Bool.or_eq_true _ _).mp h with h | h
    · have hupper : c.val ≥ 'A'.val ∧ c.val ≤ 'Z'.val := of_decide_eq_true h
      exact .inl (hrange hupper.1 hupper.2)
    · obtain ⟨hlo, hhi⟩ := (Bool.and_eq_true _ _).mp h
      have hlower : 'a'.val ≤ c.val ∧ c.val ≤ 'z'.val :=
        ⟨of_decide_eq_true hlo, of_decide_eq_true hhi⟩
      exact .inr (.inl (hrange hlower.1 hlower.2))
  · obtain ⟨hlo, hhi⟩ := (Bool.and_eq_true _ _).mp h
    have hdigit : '0'.val ≤ c.val ∧ c.val ≤ '9'.val :=
      ⟨of_decide_eq_true hlo, of_decide_eq_true hhi⟩
    exact .inr (.inr (hrange hdigit.1 hdigit.2))

theorem isBlank_of_isBindingPart (h : isBindingPart c = true) : Text.isBlank c = false := by
  cases hblank : Text.isBlank c with
  | false => rfl
  | true =>
    simp only [Text.isBlank, Bool.or_eq_true, Bool.and_eq_true, decide_eq_true_eq, beq_iff_eq]
      at hblank
    rcases isBindingPart_iff.mp h with h | rfl
    · have hcode := toNat_of_isAlphanum h
      omega
    · have hline : '_'.toNat = 95 := rfl
      omega

theorem isBindingPart_of_isBlank (h : Text.isBlank c = true) : isBindingPart c = false := by
  cases hpart : isBindingPart c with
  | false => rfl
  | true => exact absurd h (by simp [isBlank_of_isBindingPart hpart])

theorem IsBinding.ne_nil (h : IsBinding t) : t ≠ [] := by
  obtain ⟨⟨c, hc, -⟩, -⟩ := h
  intro hnil
  rw [hnil] at hc
  cases hc

/-- Blanks are a run in front of a character that is none. -/
theorem isRun_space {w rest : Text} (hw : IsSpace w) (hc : Text.isBlank c = false) :
    IsRun Text.isBlank w (c :: rest) := by
  refine ⟨hw, ?_⟩
  intro d hd
  obtain rfl : c = d := Option.some.inj hd
  exact hc

end Kinds

namespace Pieces.IsSound

variable {s : Pieces} (h : s.IsSound)
include h

theorem run_lead : IsRun Text.isBlank s.lead
    ("<!--".toList ++ (s.opened ++ ("point".toList ++ s.place))) :=
  isRun_space (c := '<') h.lead rfl

theorem run_opened : IsRun Text.isBlank s.opened ("point".toList ++ s.place) :=
  isRun_space (c := 'p') h.opened rfl

theorem run_named : IsRun Text.isBlank s.named
    (s.path ++ (s.behind ++ (":".toList ++ s.target))) := by
  obtain ⟨c, path, hpath⟩ := List.exists_cons_of_ne_nil h.path.1
  rw [hpath]
  exact isRun_space h.named.1 (h.path.2 c (by simp [hpath])).1

theorem run_path : IsRun isPathPart s.path (s.behind ++ (":".toList ++ s.target)) := by
  constructor
  · intro c hc
    exact isPathPart_iff.mpr (h.path.2 c hc)
  · intro c hc
    cases hbehind : s.behind with
    | nil =>
      rw [hbehind] at hc
      obtain rfl : ':' = c := Option.some.inj hc
      rfl
    | cons d w =>
      rw [hbehind] at hc
      obtain rfl : d = c := Option.some.inj hc
      have hblank := h.behind d (by simp [hbehind])
      simp [isPathPart, hblank]

theorem run_behind : IsRun Text.isBlank s.behind (":".toList ++ s.target) :=
  isRun_space (c := ':') h.behind rfl

theorem run_before : IsRun Text.isBlank s.before
    (s.binding ++ (s.closing ++ ("-->".toList ++ s.rest))) := by
  obtain ⟨c, binding, hbinding⟩ := List.exists_cons_of_ne_nil h.binding.ne_nil
  have hc : isBindingPart c = true := isBindingPart_iff.mpr (h.binding.2 c (by simp [hbinding]))
  rw [hbinding]
  exact isRun_space h.before (isBlank_of_isBindingPart hc)

theorem run_binding : IsRun isBindingPart s.binding (s.closing ++ ("-->".toList ++ s.rest)) := by
  constructor
  · intro c hc
    exact isBindingPart_iff.mpr (h.binding.2 c hc)
  · intro c hc
    cases hclosing : s.closing with
    | nil =>
      rw [hclosing] at hc
      obtain rfl : '-' = c := Option.some.inj hc
      rfl
    | cons d w =>
      rw [hclosing] at hc
      obtain rfl : d = c := Option.some.inj hc
      exact isBindingPart_of_isBlank (h.closing d (by simp [hclosing]))

theorem run_closing : IsRun Text.isBlank s.closing ("-->".toList ++ s.rest) :=
  isRun_space (c := '-') h.closing rfl

/-- The line of some pieces has no others. Each piece is the longest run at its place, so what
stands behind it is determined as well. -/
theorem unique {s' : Pieces} (h' : s'.IsSound) (heq : s.line = s'.line) : s = s' := by
  obtain ⟨hlead, heq⟩ := h.run_lead.unique h'.run_lead heq
  obtain ⟨hopened, heq⟩ := h.run_opened.unique h'.run_opened (List.append_cancel_left heq)
  obtain ⟨hnamed, heq⟩ := h.run_named.unique h'.run_named (List.append_cancel_left heq)
  obtain ⟨hpath, heq⟩ := h.run_path.unique h'.run_path heq
  obtain ⟨hbehind, heq⟩ := h.run_behind.unique h'.run_behind heq
  obtain ⟨hbefore, heq⟩ := h.run_before.unique h'.run_before (List.append_cancel_left heq)
  obtain ⟨hbinding, heq⟩ := h.run_binding.unique h'.run_binding heq
  obtain ⟨hclosing, heq⟩ := h.run_closing.unique h'.run_closing heq
  have hrest := List.append_cancel_left heq
  cases s
  cases s'
  simp_all

/-- A line of pieces is read as the path and the binding among them. -/
theorem read?_line : read? s.line = some ⟨s.path, s.binding⟩ := by
  have hmark (m rest : Text) : m.isPrefixOf? (m ++ rest) = some rest :=
    List.isPrefixOf?_eq_some_iff_append_eq.mpr rfl
  have hnamed : s.place.head?.any Text.isBlank = true := by
    cases hnamed : s.named with
    | nil => exact absurd hnamed h.named.2
    | cons c w => simpa [place, hnamed] using h.named.1 c (by simp [hnamed])
  have hpath : s.path.isEmpty = false := by simpa using h.path.1
  have hbinding : s.binding.head?.any isBindingStart = true := by
    simpa [Option.any_eq_true, isBindingStart_iff] using h.binding.1
  have hplace : s.place.dropWhile Text.isBlank = _ := h.run_named.takeWhile_eq.2
  have htarget : s.target.dropWhile Text.isBlank = _ := h.run_before.takeWhile_eq.2
  simp only [read?, line, Text.trimLeft, Option.bind_eq_bind, h.run_lead.takeWhile_eq,
    h.run_opened.takeWhile_eq, hmark, Option.bind_some, hnamed, hplace, h.run_path.takeWhile_eq,
    hpath, h.run_behind.takeWhile_eq, htarget, h.run_binding.takeWhile_eq, hbinding,
    h.run_closing.takeWhile_eq]
  rfl

end Pieces.IsSound

/-- A line that reads as a pointer has pieces: each of them is the longest run at its place. -/
theorem exists_pieces {line : Text} {p : Pointer} (h : read? line = some p) :
    ∃ s : Pieces, s.IsSound ∧ s.line = line ∧ p = ⟨s.path, s.binding⟩ := by
  have hcut (p : Char → Bool) (t : Text) : t.takeWhile p ++ t.dropWhile p = t :=
    List.takeWhile_append_dropWhile
  have hspace (t : Text) : IsSpace (t.takeWhile Text.isBlank) :=
    (Text.isRun_takeWhile Text.isBlank t).all
  simp only [read?, Text.trimLeft, Option.bind_eq_bind, Option.bind_eq_some_iff,
    Option.guard_eq_some', Option.some.injEq] at h
  obtain ⟨afterMark, hmark, place, hword, _, hnamed, _, hpath, target, hcolon, _, hbinding, rest,
    hclose, rfl⟩ := h
  have hmark := List.append_eq_of_isPrefixOf?_eq_some hmark
  have hword := List.append_eq_of_isPrefixOf?_eq_some hword
  have hcolon := List.append_eq_of_isPrefixOf?_eq_some hcolon
  have hclose := List.append_eq_of_isPrefixOf?_eq_some hclose
  let afterNamed := place.dropWhile Text.isBlank
  let afterBefore := target.dropWhile Text.isBlank
  let s : Pieces := {
    lead := line.takeWhile Text.isBlank
    opened := afterMark.takeWhile Text.isBlank
    named := place.takeWhile Text.isBlank
    path := afterNamed.takeWhile isPathPart
    behind := (afterNamed.dropWhile isPathPart).takeWhile Text.isBlank
    before := target.takeWhile Text.isBlank
    binding := afterBefore.takeWhile isBindingPart
    closing := (afterBefore.dropWhile isBindingPart).takeWhile Text.isBlank
    rest }
  have htarget : s.target = target := by
    simp only [Pieces.target, s, hclose, hcut, afterBefore]
  have hplace : s.place = place := by
    simp only [Pieces.place, htarget, s, hcolon, hcut, afterNamed]
  have hline : s.line = line := by
    simp only [Pieces.line, hplace, s, hword, hmark, hcut]
  refine ⟨s, ?_, hline, rfl⟩
  constructor
  · exact hspace line
  · exact hspace afterMark
  · refine ⟨hspace place, ?_⟩
    cases place with
    | nil => cases hnamed
    | cons c place =>
      have hc : Text.isBlank c = true := by simpa using hnamed
      simp [s, hc]
  · refine ⟨?_, ?_⟩
    · intro hnil
      have hpath : (!s.path.isEmpty) = true := (Option.guard_eq_some' _).mp hpath
      rw [hnil] at hpath
      cases hpath
    intro c hc
    exact isPathPart_iff.mp ((Text.isRun_takeWhile isPathPart afterNamed).all c hc)
  · exact hspace _
  · exact hspace target
  · refine ⟨by simpa [Option.any_eq_true, isBindingStart_iff] using hbinding, ?_⟩
    intro c hc
    exact isBindingPart_iff.mp ((Text.isRun_takeWhile isBindingPart afterBefore).all c hc)
  · exact hspace _

def comment (p : Pointer) : Text :=
  "<!-- point " ++ p.text ++ " -->"

def pieces (p : Pointer) : Pieces :=
  ⟨[], [' '], [' '], p.backend, [], [], p.binding, [' '], []⟩

theorem line_pieces (p : Pointer) : p.pieces.line = p.comment := by
  have hopening : "<!-- point ".toList = "<!--".toList ++ [' '] ++ "point".toList ++ [' '] := by
    decide
  have hclosing : " -->".toList = [' '] ++ "-->".toList := by
    decide
  unfold comment text
  rw [hopening, hclosing]
  simp only [List.append_assoc]
  rfl

theorem read?_comment {p : Pointer} (hpath : IsPath p.backend) (hbinding : IsBinding p.binding) :
    read? p.comment = some p := by
  have hnone : IsSpace [] := by simp [IsSpace]
  have hone : IsSpace [' '] := by simp [IsSpace, Text.isBlank]
  have hs : p.pieces.IsSound :=
    ⟨hnone, hone, ⟨hone, List.cons_ne_nil ' ' []⟩, hpath, hnone, hnone, hbinding, hone⟩
  rw [← line_pieces]
  exact hs.read?_line

/-- A line reads as a pointer exactly when it is one written in pieces, which it is in one way
only. A pointer written as a comment is read again, and so is the one that any line gave. -/
theorem read?_exact :
    (∀ line p, read? line = some p ↔
      ∃ s : Pieces, s.IsSound ∧ s.line = line ∧ p = ⟨s.path, s.binding⟩) ∧
    (∀ s s' : Pieces, s.IsSound → s'.IsSound → s.line = s'.line → s = s') ∧
    (∀ p : Pointer, IsPath p.backend → IsBinding p.binding → read? p.comment = some p) ∧
    ∀ line p, read? line = some p → read? p.comment = some p := by
  refine ⟨?_, fun s s' h h' => h.unique h', fun p => read?_comment, ?_⟩
  · intro line p
    constructor
    · exact exists_pieces
    · rintro ⟨s, hs, rfl, rfl⟩
      exact hs.read?_line
  · intro line p h
    obtain ⟨s, hs, -, rfl⟩ := exists_pieces h
    exact read?_comment hs.path hs.binding

end Pagewright.Pointer
