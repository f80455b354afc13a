import Pagewright.Proofs.Grammar.Gives

namespace Pagewright.Syntax.Expression

open Syntax.Parser

variable {g : Grammar} {P : Expr → Prop} {ks rest : List TokenKind}
  {t u : TokenKind}

def opensAtom : TokenKind → Bool
  | .name _ | .literal _ | .int _ | .float _ | .imaginary _ => true
  | .keyword w => [.noneWord, .trueWord, .falseWord].contains w
  | .operator o => [.leftParen, .leftBracket, .leftBrace, .threeDots].contains o
  | _ => false

def comparesNext : TokenKind → Bool
  | .operator o =>
    [.doubleEqual, .notEqual, .less, .lessEqual, .greater, .greaterEqual].contains o
  | .keyword w => [.inWord, .isWord, .notWord].contains w
  | _ => false

def operatesNext (k : TokenKind) : Bool :=
  k = .operator .leftParen || k = .operator .leftBracket || k = .operator .dot
    || k = .operator .doubleStar || tiers.any fun tier => (tierOp? tier k).isSome

/-- Whether a token ends any conditional, so that nothing goes on with what stands before it. -/
def ends (k : TokenKind) : Bool :=
  !operatesNext k && !comparesNext k
    && !([.keyword .andWord, .keyword .orWord, .keyword .ifWord].contains k)

theorem trailers_of_end {start fuel : Nat} {e : Expr} (hu : operatesNext u = false) :
    Gives (trailers g start fuel e) (u :: rest) (· = e) (u :: rest) := by
  simp only [operatesNext, Bool.or_eq_false_iff, decide_eq_false_iff_not] at hu
  cases fuel with
  | zero => exact gives_pure rfl
  | succ fuel =>
    refine (gives_accept_not hu.1.1.1.1).bind fun b hb => ?_
    rw [hb]
    refine (gives_accept_not hu.1.1.1.2).bind fun b hb => ?_
    rw [hb]
    refine (gives_accept_not hu.1.1.2).bind fun b hb => ?_
    rw [hb]
    exact gives_pure rfl

theorem primary_of_atom (h : Gives (atom g) (t :: ks) P (u :: rest))
    (hu : operatesNext u = false) : Gives (primary g) (t :: ks) P (u :: rest) := by
  refine gives_here.bind fun start _ => h.bind fun e he => ?_
  exact (trailers_of_end hu).mono fun x hx => hx ▸ he

theorem awaited_of_primary (h : Gives (primary g) (t :: ks) P rest)
    (ht : opensAtom t = true) : Gives (awaited g) (t :: ks) P rest := by
  have hawait : t ≠ .keyword .awaitWord := by
    intro hk
    rw [hk] at ht
    simp [opensAtom] at ht
  refine gives_here.bind fun _ _ => (gives_accept_not hawait).bind fun b hb => ?_
  rw [hb]
  exact h

theorem power_of_awaited (h : Gives (awaited g) (t :: ks) P (u :: rest))
    (hu : operatesNext u = false) : Gives (power g) (t :: ks) P (u :: rest) := by
  simp only [operatesNext, Bool.or_eq_false_iff, decide_eq_false_iff_not] at hu
  refine gives_here.bind fun _ _ => h.bind fun e he => ?_
  refine (gives_accept_not hu.1.2).bind fun b hb => ?_
  rw [hb]
  exact gives_pure he

theorem sign_of_atom {k : TokenKind} (h : opensAtom k = true) : sign? k = none := by
  cases k with
  | operator o => cases o <;> first | rfl | simp [opensAtom] at h
  | _ => rfl

theorem factor_of_primary (h : Gives (primary g) (t :: ks) P (u :: rest))
    (ht : opensAtom t = true) (hu : operatesNext u = false) :
    Gives (factor g) (t :: ks) P (u :: rest) := by
  refine gives_here.bind fun _ _ => gives_kind.bind fun k hk => ?_
  rw [hk, Option.bind_some, sign_of_atom ht]
  exact power_of_awaited (awaited_of_primary h ht) hu

/-- Where no operator follows, all tiers give what the tightest one gives. -/
theorem tiers_of_end {tighter : Parser Expr} (fuel : Nat)
    (h : Gives tighter (t :: ks) P (u :: rest)) (all : List (List (Operator × BinaryOp)))
    (hu : ∀ tier ∈ all, tierOp? tier u = none) :
    Gives (all.foldr (tierOf fuel) tighter) (t :: ks) P (u :: rest) := by
  induction all with
  | nil => exact h
  | cons tier all ih =>
    refine gives_here.bind fun start _ => (ih fun x hx => hu x (by simp [hx])).bind fun e he => ?_
    cases fuel with
    | zero => exact gives_pure he
    | succ fuel =>
      refine gives_kind.bind fun k hk => ?_
      rw [hk, Option.bind_some, hu tier (by simp)]
      exact gives_pure he

theorem operand_of_factor (h : Gives (factor g) (t :: ks) P (u :: rest))
    (hu : operatesNext u = false) : Gives (operand g) (t :: ks) P (u :: rest) := by
  refine tiers_of_end g.fuel h tiers fun tier htier => ?_
  simp only [operatesNext, Bool.or_eq_false_iff, List.any_eq_false] at hu
  simpa using hu.2 tier htier

theorem compareOp_of_end (hu : comparesNext u = false) :
    Gives compareOp (u :: rest) (· = none) (u :: rest) := by
  refine gives_kind.bind fun k hk => ?_
  rw [hk]
  cases u with
  | operator o => cases o <;> first | exact gives_pure rfl | simp [comparesNext] at hu
  | keyword w => cases w <;> first | exact gives_pure rfl | simp [comparesNext] at hu
  | _ => exact gives_pure rfl

theorem comparisons_of_end {fuel : Nat} (hu : comparesNext u = false) :
    Gives (comparisons g fuel) (u :: rest) (· = []) (u :: rest) := by
  cases fuel with
  | zero => exact gives_pure rfl
  | succ fuel =>
    refine (compareOp_of_end hu).bind fun b hb => ?_
    rw [hb]
    exact gives_pure rfl

theorem comparison_of_operand (h : Gives (operand g) (t :: ks) P (u :: rest))
    (hu : comparesNext u = false) : Gives (comparison g) (t :: ks) P (u :: rest) := by
  refine gives_here.bind fun start _ => h.bind fun e he => ?_
  refine (comparisons_of_end hu).bind fun rs hr => ?_
  rw [hr]
  exact gives_pure he

theorem negation_of_comparison (h : Gives (comparison g) (t :: ks) P rest)
    (ht : opensAtom t = true) : Gives (negation g) (t :: ks) P rest := by
  have hnot : t ≠ .keyword .notWord := by
    intro hk
    rw [hk] at ht
    simp [opensAtom] at ht
  refine gives_here.bind fun start _ => (gives_accept_not hnot).bind fun b hb => ?_
  rw [hb]
  exact h

theorem joinedBy_of_end {fuel : Nat} {word : Keyword} {op : BoolOp} {item : Parser Expr}
    (h : Gives item (t :: ks) P (u :: rest)) (hu : u ≠ .keyword word) :
    Gives (joinedBy fuel word op item) (t :: ks) P (u :: rest) := by
  refine gives_here.bind fun start _ => h.bind fun e he => ?_
  refine (gives_manyWhile_nil (gives_accept_not hu)).bind fun rs hr => ?_
  rw [hr]
  exact gives_pure he

/-- Two operands that a word joins. -/
theorem joinedBy_two {fuel : Nat} {word : Keyword} {op : BoolOp} {item : Parser Expr} {Q : Expr → Prop}
    {mid : List TokenKind} (h : Gives item (t :: ks) P (.keyword word :: mid))
    (hlater : Gives item mid Q (u :: rest)) (hu : u ≠ .keyword word) :
    Gives (joinedBy (fuel + 1) word op item) (t :: ks)
      (fun e => ∃ span x y, e = .boolean span op [x, y] ∧ P x ∧ Q y) (u :: rest) := by
  have hmore : Gives (manyWhile (acceptWord word) item (fuel + 1)) (.keyword word :: mid)
      (fun ys => ∃ y, ys = [y] ∧ Q y) (u :: rest) := by
    refine gives_accept.bind fun b hb => ?_
    rw [hb]
    refine hlater.bind fun y hy => (gives_manyWhile_nil (gives_accept_not hu)).bind fun ys hys => ?_
    rw [hys]
    exact gives_pure ⟨y, rfl, hy⟩
  refine gives_here.bind fun start _ => h.bind fun x hx => hmore.bind fun ys hys => ?_
  obtain ⟨y, rfl, hy⟩ := hys
  exact gives_spanFrom.bind fun span _ => gives_pure ⟨span, x, y, rfl, hx, hy⟩

theorem conjunction_of_comparison (h : Gives (comparison g) (t :: ks) P (u :: rest))
    (ht : opensAtom t = true) (hu : u ≠ .keyword .andWord) :
    Gives (conjunction g) (t :: ks) P (u :: rest) :=
  joinedBy_of_end (negation_of_comparison h ht) hu

theorem test_of_disjunction (h : Gives (disjunction g) (t :: ks) P (u :: rest))
    (ht : opensAtom t = true) (hu : u ≠ .keyword .ifWord) :
    Gives (test g) (t :: ks) P (u :: rest) := by
  have hlambda : t ≠ .keyword .lambdaWord := by
    intro hk
    rw [hk] at ht
    simp [opensAtom] at ht
  refine gives_here.bind fun start _ => (gives_accept_not hlambda).bind fun b hb => ?_
  rw [hb]
  refine h.bind fun e he => (gives_accept_not hu).bind fun b hb => ?_
  rw [hb]
  exact gives_pure he

/-- One value, a condition and another value. -/
theorem test_conditional {Q R : Expr → Prop} {mid later : List TokenKind}
    (h : Gives (disjunction g) (t :: ks) P (.keyword .ifWord :: mid)) (ht : opensAtom t = true)
    (hcondition : Gives (disjunction g) mid Q (.keyword .elseWord :: later))
    (horelse : Gives g.test later R rest) :
    Gives (test g) (t :: ks)
      (fun e => ∃ span x y z, e = .conditional span x y z ∧ Q x ∧ P y ∧ R z) rest := by
  have hlambda : t ≠ .keyword .lambdaWord := by
    intro hk
    rw [hk] at ht
    simp [opensAtom] at ht
  refine gives_here.bind fun start _ => (gives_accept_not hlambda).bind fun b hb => ?_
  rw [hb]
  refine h.bind fun y hy => gives_accept.bind fun b hb => ?_
  rw [hb]
  refine hcondition.bind fun x hx => gives_expect.bind fun _ _ => horelse.bind fun z hz => ?_
  exact gives_spanFrom.bind fun span _ => gives_pure ⟨span, x, y, z, rfl, hx, hy, hz⟩

/-- Two operands that a comparison compares. -/
theorem comparison_two {Q : Expr → Prop} {op : CompareOp} {k : TokenKind} {mid : List TokenKind} {n : Nat}
    (hfuel : g.fuel = n + 1) (h : Gives (operand g) (t :: ks) P (k :: mid))
    (hop : Gives compareOp (k :: mid) (· = some op) mid)
    (hlater : Gives (operand g) mid Q (u :: rest)) (hu : comparesNext u = false) :
    Gives (comparison g) (t :: ks)
      (fun e => ∃ span x y, e = .compare span x [(op, y)] ∧ P x ∧ Q y) (u :: rest) := by
  have hmore : Gives (comparisons g g.fuel) (k :: mid) (fun ys => ∃ y, ys = [(op, y)] ∧ Q y)
      (u :: rest) := by
    rw [hfuel]
    refine hop.bind fun o ho => ?_
    rw [ho]
    refine hlater.bind fun y hy => (comparisons_of_end hu).bind fun ys hys => ?_
    rw [hys]
    exact gives_pure ⟨y, rfl, hy⟩
  refine gives_here.bind fun start _ => h.bind fun x hx => hmore.bind fun ys hys => ?_
  obtain ⟨y, rfl, hy⟩ := hys
  exact gives_spanFrom.bind fun span _ => gives_pure ⟨span, x, y, rfl, hx, hy⟩

theorem operand_of_primary (h : Gives (primary g) (t :: ks) P (u :: rest)) (ht : opensAtom t = true)
    (hu : operatesNext u = false) : Gives (operand g) (t :: ks) P (u :: rest) :=
  operand_of_factor (factor_of_primary h ht hu) hu

theorem conjunction_of_primary (h : Gives (primary g) (t :: ks) P (u :: rest))
    (ht : opensAtom t = true) (ho : operatesNext u = false) (hc : comparesNext u = false)
    (hand : u ≠ .keyword .andWord) : Gives (conjunction g) (t :: ks) P (u :: rest) :=
  conjunction_of_comparison (comparison_of_operand (operand_of_primary h ht ho) hc) ht hand

/-- A primary with nothing after it is an operand of any rule up to a conditional. -/
theorem test_of_primary (h : Gives (primary g) (t :: ks) P (u :: rest))
    (ht : opensAtom t = true) (hu : ends u = true) :
    Gives (test g) (t :: ks) P (u :: rest) := by
  simp only [ends, Bool.and_eq_true, Bool.not_eq_true', List.contains_eq_mem, List.mem_cons,
    decide_eq_false_iff_not, not_or] at hu
  obtain ⟨⟨ho, hc⟩, hand, hor, hif, -⟩ := hu
  exact test_of_disjunction (joinedBy_of_end (conjunction_of_primary h ht ho hc hand) hor) ht hif

end Pagewright.Syntax.Expression
