import Pagewright.Proofs.Grammar.Operands
import Pagewright.Proofs.Lexing.Advance

namespace Pagewright.Syntax

def Expr.IsName (id : Text) (e : Expr) : Prop :=
  ∃ s, e = .name s id

def Expr.IsText (t : Text) (e : Expr) : Prop :=
  ∃ s, e = .constant s (.text t)

def Expr.IsAttribute (P : Expr → Prop) (name : Text) (e : Expr) : Prop :=
  ∃ s v, e = .attribute s v name ∧ P v

def Expr.IsCall (P : Expr → Prop) (Q : List Expr → List (KeywordArg Expr) → Prop) (e : Expr) :
    Prop :=
  ∃ s callee args keywords, e = .call s callee args keywords ∧ P callee ∧ Q args keywords

namespace LiteralValue

/-- A text without escapes and carriage returns denotes itself. -/
theorem readPlain_self {names : NameTable} {raw : Bool} {t : Text}
    (ht : ∀ c ∈ t, c ≠ '\\' ∧ c ≠ '\r') {fuel offset : Nat}
    (hf : t.length < fuel) : readPlain names raw false fuel ⟨t, offset⟩ = .ok t := by
  induction t generalizing fuel offset with
  | nil =>
    obtain ⟨fuel, rfl⟩ : ∃ n, fuel = n + 1 := ⟨fuel - 1, by simp at hf; omega⟩
    rfl
  | cons c cs ih =>
    obtain ⟨fuel, rfl⟩ : ∃ n, fuel = n + 1 := ⟨fuel - 1, by simp at hf; omega⟩
    obtain ⟨h1, h2⟩ := ht c (by simp)
    have hrest : readPlain names raw false fuel ⟨cs, offset + c.utf8Size⟩ = .ok cs :=
      ih (fun d hd => ht d (by simp [hd])) (by simp at hf; omega)
    simp [readPlain, Rest.next_plain h2, h1, hrest, bind, Except.bind, pure, Except.pure]

end LiteralValue
namespace Expression

open Syntax.Parser

variable {g : Grammar} {P : Expr → Prop} {ks mid rest : List TokenKind} {t u : TokenKind}

theorem atom_name {id : Text} : Gives (atom g) (.name id :: ks) (Expr.IsName id) ks := by
  refine gives_here.bind fun _ _ => gives_kind.bind fun k hk => ?_
  rw [hk]
  exact gives_take.bind fun _ _ => gives_spanFrom.bind fun _ _ => gives_pure ⟨_, rfl⟩

theorem literalPart_gives {l : Literal} :
    Gives literalPart (.literal l :: ks) (fun p => p.literal = l) ks := by
  refine gives_next.bind fun o ho => ?_
  obtain ⟨⟨kind, start, stop⟩, rfl, rfl⟩ := ho
  exact gives_take.bind fun _ _ => gives_pure rfl

/-- A plain literal alone denotes its content if no escape and no carriage return is in it. -/
theorem atom_text {content : Text} (hc : ∀ c ∈ content, c ≠ '\\' ∧ c ≠ '\r')
    (hu : isLiteral u = false) :
    Gives (atom g) (.literal ⟨.plain, false, false, content⟩ :: u :: rest)
      (Expr.IsText content) (u :: rest) := by
  refine gives_here.bind fun _ _ => gives_kind.bind fun k hk => ?_
  rw [hk]
  refine literalPart_gives.bind fun p hp => ?_
  refine (gives_manyWhile_nil (p := literalPart) (gives_nextIs.mono fun b hb => hb.trans hu)).bind
    fun ps hps => ?_
  have hplain : p.plainValue g.names = .ok content := by
    unfold LiteralValue.Part.plainValue LiteralValue.Part.inner
    rw [hp]
    exact LiteralValue.readPlain_self hc (by simp)
  have hvalue : LiteralValue.ofParts g.names (fieldReader g) p ps =
      .ok (.constant ⟨p.span.start, p.span.stop⟩ (.text content)) := by
    simp [LiteralValue.ofParts, hps, hp, hplain, bind, Except.bind, pure, Except.pure]
  rw [hvalue]
  exact gives_pure ⟨_, rfl⟩

variable {start fuel : Nat} {e : Expr} {Q : Expr → Prop}

theorem trailers_attribute {id : Text} (hP : P e)
    (h : ∀ e', Expr.IsAttribute P id e' → Gives (trailers g start fuel e') mid Q rest) :
    Gives (trailers g start (fuel + 1) e) (.operator .dot :: .name id :: mid) Q rest := by
  refine (gives_accept_not (by decide)).bind fun b hb => ?_
  rw [hb]
  refine (gives_accept_not (by decide)).bind fun b hb => ?_
  rw [hb]
  refine gives_accept.bind fun b hb => ?_
  rw [hb]
  refine gives_identifier.bind fun name hname => gives_spanFrom.bind fun s _ => ?_
  exact h _ ⟨s, e, by rw [hname], hP⟩

theorem trailers_call {R : List Expr × List (KeywordArg Expr) → Prop} (hP : P e)
    (ha : Gives (arguments g) ks R (.operator .rightParen :: mid))
    (h : ∀ e', Expr.IsCall P (fun args keywords => R (args, keywords)) e' →
      Gives (trailers g start fuel e') mid Q rest) :
    Gives (trailers g start (fuel + 1) e) (.operator .leftParen :: ks) Q rest := by
  refine gives_accept.bind fun b hb => ?_
  rw [hb]
  refine ha.bind fun r hr => gives_expect.bind fun _ _ => gives_spanFrom.bind fun s _ => ?_
  exact h _ ⟨s, e, r.1, r.2, rfl, hP, hr⟩

theorem primary_of_trailers (ha : Gives (atom g) (t :: ks) P mid)
    (h : ∀ start e, P e → Gives (trailers g start g.fuel e) mid Q rest) :
    Gives (primary g) (t :: ks) Q rest :=
  gives_here.bind fun start _ => ha.bind fun e he => h start e he

/-- Whether a token makes an argument or an operand before it a name of its own. -/
def binds (k : TokenKind) : Bool :=
  k = .operator .equal || k = .operator .colonEqual

theorem bindsName_not (hs : ∀ k ∈ ks.head?, binds k = false) :
    Gives bindsName (t :: ks) (· = false) (t :: ks) := by
  refine gives_kind.bind fun k hk => ?_
  rw [hk]
  cases t with
  | name id =>
    refine gives_second.bind fun o ho => gives_pure ?_
    cases ks with
    | nil => simp [ho]
    | cons k ks =>
      have hk := hs k (by simp)
      simp only [binds, Bool.or_eq_false_iff, decide_eq_false_iff_not] at hk
      simp [ho, hk.2]
  | _ => exact gives_pure rfl

theorem isKeywordNext_not (hs : ∀ k ∈ ks.head?, binds k = false) :
    Gives isKeywordNext (t :: ks) (· = false) (t :: ks) := by
  refine gives_kind.bind fun k hk => ?_
  rw [hk]
  cases t with
  | name id =>
    refine gives_second.bind fun o ho => gives_pure ?_
    cases ks with
    | nil => simp [ho]
    | cons k ks =>
      have hk := hs k (by simp)
      simp only [binds, Bool.or_eq_false_iff, decide_eq_false_iff_not] at hk
      simp [ho, hk.1]
  | _ => exact gives_pure rfl

theorem named_of_test (h : Gives g.test (t :: ks) P rest)
    (hs : ∀ k ∈ ks.head?, binds k = false) : Gives (named g) (t :: ks) P rest := by
  refine gives_here.bind fun _ _ => (bindsName_not hs).bind fun b hb => ?_
  rw [hb]
  exact h

theorem opensAtom_ne {k : TokenKind} (h : opensAtom t = true) (hk : opensAtom k = false) :
    t ≠ k := by
  rintro rfl
  rw [h] at hk
  exact absurd hk (by decide)

/-- One value in the brackets of a subscript. -/
theorem subscripts_one (h : Gives g.test (t :: ks) P (.operator .rightBracket :: rest))
    (ht : opensAtom t = true) (hs : ∀ k ∈ ks.head?, binds k = false) :
    Gives (subscripts g) (t :: ks) P (.operator .rightBracket :: rest) := by
  have hitem : Gives (subscriptItem g) (t :: ks) P (.operator .rightBracket :: rest) := by
    refine gives_here.bind fun _ _ => gives_isNext.bind fun b hb => ?_
    rw [hb, decide_eq_false (opensAtom_ne ht rfl)]
    refine (bindsName_not hs).bind fun b _ => gives_isNext.bind fun c _ => ?_
    have hvalue : Gives (namedOrStar g) (t :: ks) P (.operator .rightBracket :: rest) := by
      refine gives_isNext.bind fun b hb => ?_
      rw [hb, decide_eq_false (opensAtom_ne ht rfl)]
      exact named_of_test h hs
    refine hvalue.bind fun e he => gives_isNext.bind fun d hd => ?_
    rw [hd, decide_eq_false (by simp), Bool.and_false]
    exact gives_pure he
  refine gives_here.bind fun start _ => (gives_items_one hitem (by simp)).bind fun r hr => ?_
  obtain ⟨e, rfl, he⟩ := hr
  exact gives_pure he

theorem trailers_subscript (hP : P e) {R : Expr → Prop}
    (hindex : Gives (subscripts g) ks R (.operator .rightBracket :: mid))
    (h : ∀ e', (∃ s o i, e' = .subscript s o i ∧ P o ∧ R i) →
      Gives (trailers g start fuel e') mid Q rest) :
    Gives (trailers g start (fuel + 1) e) (.operator .leftBracket :: ks) Q rest := by
  refine (gives_accept_not (by decide)).bind fun b hb => ?_
  rw [hb]
  refine gives_accept.bind fun b hb => ?_
  rw [hb]
  refine hindex.bind fun i hi => gives_expect.bind fun _ _ => gives_spanFrom.bind fun s _ => ?_
  exact h _ ⟨s, e, i, rfl, hP, hi⟩

/-- An expression is a positional argument unless a comprehension follows. -/
theorem argument_positional (h : Gives g.test (t :: ks) P (u :: rest)) (ht : opensAtom t = true)
    (hs : ∀ k ∈ ks.head?, binds k = false) (hu : isComprehension u = false) :
    Gives (argument g) (t :: ks) (fun a => ∃ e, a = .positional e ∧ P e) (u :: rest) := by
  refine gives_here.bind fun _ _ => ?_
  refine (gives_accept_not (opensAtom_ne ht rfl)).bind fun b hb => ?_
  rw [hb]
  refine (gives_accept_not (opensAtom_ne ht rfl)).bind fun b hb => ?_
  rw [hb]
  refine (isKeywordNext_not hs).bind fun b hb => ?_
  rw [hb]
  refine (named_of_test h hs).bind fun e he => gives_nextIs.bind fun b hb => ?_
  rw [hb, hu]
  exact gives_pure ⟨e, rfl, he⟩

/-- A name and an equals sign make a keyword argument of what follows. -/
theorem argument_keyword {id : Text} (h : Gives g.test ks P rest) :
    Gives (argument g) (.name id :: .operator .equal :: ks)
      (fun a => ∃ s e, a = .keyword s (some id) e ∧ P e) rest := by
  refine gives_here.bind fun start _ => ?_
  refine (gives_accept_not (by simp)).bind fun b hb => ?_
  rw [hb]
  refine (gives_accept_not (by simp)).bind fun b hb => ?_
  rw [hb]
  have hnext : Gives isKeywordNext (.name id :: .operator .equal :: ks) (· = true)
      (.name id :: .operator .equal :: ks) := by
    refine gives_kind.bind fun k hk => ?_
    rw [hk]
    exact gives_second.bind fun o ho => gives_pure (by simp [ho])
  refine hnext.bind fun b hb => ?_
  rw [hb]
  refine gives_identifier.bind fun name hname => gives_take.bind fun _ _ => ?_
  exact h.bind fun e he => gives_pure ⟨start, e, by rw [hname], he⟩

theorem argumentItems_one {A : Argument → Prop} (h : Gives (argument g) (t :: ks) A (u :: rest))
    (ht : startsArgument t = true) (hu : u ≠ .operator .comma) :
    Gives (argumentItems g (fuel + 1)) (t :: ks) (fun as => ∃ a, as = [a] ∧ A a) (u :: rest) := by
  refine gives_nextIs.bind fun b hb => ?_
  rw [hb, ht]
  refine h.bind fun a ha => (gives_accept_not hu).bind fun b hb => ?_
  rw [hb]
  exact gives_pure ⟨a, rfl, ha⟩

theorem argumentItems_more {A : Argument → Prop} {B : List Argument → Prop}
    (h : Gives (argument g) (t :: ks) A (.operator .comma :: mid))
    (ht : startsArgument t = true) (hl : Gives (argumentItems g fuel) mid B rest) :
    Gives (argumentItems g (fuel + 1)) (t :: ks) (fun as => ∃ a later, as = a :: later ∧ A a ∧ B later)
      rest := by
  refine gives_nextIs.bind fun b hb => ?_
  rw [hb, ht]
  refine h.bind fun a ha => gives_accept.bind fun b hb => ?_
  rw [hb]
  exact hl.bind fun as has => gives_pure ⟨a, as, rfl, ha, has⟩

def positional? : Argument → Option Expr
  | .positional value => some value
  | .keyword .. => none

def keyword? : Argument → Option (KeywordArg Expr)
  | .positional _ => none
  | .keyword _ name value => some ⟨name, value⟩

theorem arguments_of_items {B : List Argument → Prop}
    (h : Gives (argumentItems g g.fuel) ks B rest)
    (hB : ∀ as, B as → argumentFault? [] false false as = none) :
    Gives (arguments g) ks
      (fun r => ∃ as, B as ∧ r = (as.filterMap positional?, as.filterMap keyword?)) rest := by
  refine h.bind fun as has => ?_
  rw [hB as has]
  exact gives_pure ⟨as, has, rfl⟩

end Expression
end Pagewright.Syntax
