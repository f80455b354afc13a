import Pagewright.Proofs.Grammar.Compound
import Pagewright.Proofs.Lexing.Names

namespace Pagewright.Syntax

/-- A head with well-formed names, the parameters that a call binds one by one told apart. -/
structure FunctionHead.IsNamed (head : FunctionHead) : Prop where
  name : Identifier.IsWhole head.name
  params : ∀ p ∈ head.params.single, Identifier.IsWhole p.name
  distinct : (head.params.single.map (·.name)).Nodup

/-- A statement, if it defines a function, has a head of which a property holds. -/
def Stmt.HasHead (P : FunctionHead → Prop) : Stmt → Prop
  | .function _ head _ => P head
  | _ => True

def Cursor.Lasts (I : Cursor → Prop) : Prop :=
  ∀ c c', I c → c.Moves c' → I c'

theorem Cursor.lasts_at (t : Text) : Cursor.Lasts (Cursor.At t) :=
  fun _ _ h hmoves => (h.moves hmoves).1

namespace Parser

variable {t : Text} {c : Cursor}

/-- What holds of two rules one after the other holds of the second one behind the first one. -/
theorem Post.behind {α β : Type} {p : Parser α} {f : α → Parser β} {Q : β → Cursor → Prop}
    (h : Post (p >>= f) c Q) : Post p c fun x c' => Post (f x) c' Q := by
  intro x c' hx y c'' hy
  apply h
  simp only [Bind.bind, StateT.bind, Except.bind, hx]
  exact hy

/-- A held fault is raised before a token is taken. -/
theorem post_take_settled : Post take c fun _ _ => c.held = none := by
  have hsettle : Post settle c fun _ _ => c.held = none := by
    intro x c' hx
    unfold settle at hx
    split at hx
    · cases hx
    · assumption
  exact hsettle.bind fun _ c' hheld => fun _ _ _ => hheld

theorem post_accept_settled {k : TokenKind} :
    Post (accept k) c fun b c' => b = true ∧ c.held = none ∨ b = false ∧ c' = c := by
  refine Post.kind fun k? hk => Post.ite (fun h => ?_) fun _ => post_pure (.inr ⟨rfl, rfl⟩)
  exact post_take_settled.bind fun _ c' hheld => post_pure (.inl ⟨rfl, hheld⟩)

theorem post_expect_settled {k : TokenKind} : Post (expect k) c fun _ _ => c.held = none := by
  refine post_accept_settled.bind fun b c' h => ?_
  rcases h with ⟨rfl, hheld⟩ | ⟨rfl, rfl⟩
  · exact post_pure hheld
  · exact post_unexpected

theorem Post.expectSettled {β : Type} {k : TokenKind} {f : Unit → Parser β} {Q : β → Cursor → Prop}
    (hk : k.isLayout = false)
    (h : ∀ c', c.held = none → c.Passes c' → Post (f ()) c' Q) : Post (Parser.expect k >>= f) c Q := by
  intro y c' hy
  have hheld : Post (Parser.expect k >>= f) c fun _ _ => c.held = none :=
    post_expect_settled.bind fun _ _ hheld _ _ _ => hheld
  exact Post.expect hk (fun c₁ h₁ => h c₁ (hheld y c' hy) h₁) y c' hy

theorem post_identifier_settled : Post identifier c fun _ _ => c.held = none := by
  refine Post.kind fun k? hk => ?_
  split
  · exact post_take_settled.bind fun _ c' hheld => post_pure hheld
  · exact post_unexpected

theorem post_identifier_named (h : c.At t) :
    Post identifier c fun id c' => Identifier.IsWhole id ∧ c.Passes c' := by
  refine post_name.mono fun id c' hid => ?_
  obtain ⟨x, hx, hname⟩ := hid
  refine ⟨h.named x ?_ id hname, hx.passes (by rw [hname]; rfl)⟩
  rw [hx.tokens]
  exact List.mem_cons_self

end Parser

namespace Expression

open Syntax.Parser

variable {g : Grammar} {t : Text} {c : Cursor} {P : Parameter Expr → Prop}

/-- A property of all parameters that a call binds one by one. -/
def EachSingle (P : Parameter Expr → Prop) (ps : Parameters Expr) : Prop :=
  ∀ p ∈ ps.single, P p

def boundParam (g : Grammar) (typed : Bool) : Parser (Parameter Expr) := do
  let p ← paramName (if typed then some g.test else none)
  let fallback ← if ← acceptSymbol .equal then some <$> g.test else pure none
  return { p with fallback }

/-- A default changes nothing but itself. -/
theorem boundParam_each {typed : Bool} (hdefault : ∀ p fallback, P p → P { p with fallback })
    (hname : Post (paramName (if typed then some g.test else none)) c fun p _ => P p) :
    Post (boundParam g typed) c fun p c' => c'.held = none → P p := by
  refine hname.bind fun p c₁ hp => Post.any fun b c₂ => ?_
  refine Post.ite (fun _ => Post.any fun e c₃ => ?_) fun _ => ?_
  · exact post_pure fun _ => hdefault p e hp
  · exact post_pure fun _ => hdefault p none hp

/-- A parameter starts with a word, so that no fault is held before it. -/
theorem paramItem_settled {typed : Bool} {s : ParamState} :
    Post (paramItem g typed s) c fun _ _ => c.held = none := by
  have hname (hint : Option (Parser Expr)) : Post (paramName hint) c fun _ _ => c.held = none :=
    Post.here (post_identifier_settled.bind fun name c₁ hheld => fun _ _ _ => hheld)
  refine Post.here (post_accept_settled.bind fun b c₁ h₁ => ?_)
  rcases h₁ with ⟨rfl, hheld⟩ | ⟨rfl, rfl⟩
  · exact fun _ _ _ => hheld
  refine post_accept_settled.bind fun b c₂ h₂ => ?_
  rcases h₂ with ⟨rfl, hheld⟩ | ⟨rfl, rfl⟩
  · exact fun _ _ _ => hheld
  refine post_accept_settled.bind fun b c₃ h₃ => ?_
  rcases h₃ with ⟨rfl, hheld⟩ | ⟨rfl, rfl⟩
  · exact fun _ _ _ => hheld
  · exact (hname _).bind fun p c₄ hheld => fun _ _ _ => hheld

/-- What holds of a parameter that is read holds of all parameters of a list. -/
theorem paramItem_each {typed : Bool} {s : ParamState} (hs : c.held = none → EachSingle P s.params)
    (hparam : Post (boundParam g typed) c fun p c' => c'.held = none → P p) :
    Post (paramItem g typed s) c fun s' c' => c'.held = none → EachSingle P s'.params := by
  intro s' c' hs' hheld
  have hs := hs (paramItem_settled s' c' hs')
  revert hheld
  suffices h : Post (paramItem g typed s) c fun s' c' => c'.held = none → EachSingle P s'.params from
    h s' c' hs'
  refine Post.here (Post.accept rfl (fun c₁ h₁ => post_pure fun _ p hp => hs p ?_) ?_)
  · simp only [Parameters.single, List.append_nil, List.mem_append] at hp ⊢
    exact hp.imp_left .inr
  refine Post.accept rfl (fun c₁ h₁ => looks_nextIs.bind fun b => ?_) ?_
  · exact Post.ite (fun _ => Post.any fun p c₂ => post_pure fun _ => hs) fun _ => post_pure fun _ => hs
  refine Post.accept rfl (fun c₁ h₁ => looks_nextIs.bind fun b => ?_) ?_
  · exact Post.ite (fun _ => Post.any fun p c₂ => post_pure fun _ => hs) fun _ => post_pure fun _ => hs
  have hadd {p : Parameter Expr} {c₃ : Cursor} (hp : c₃.held = none → P p) :
      Post (if s.stage = .afterStar then
          (return { s with params := { s.params with
            keywordOnly := s.params.keywordOnly ++ [p] } } : Parser ParamState)
        else return { s with params := { s.params with regular := s.params.regular ++ [p] } }) c₃
        fun s' c' => c'.held = none → EachSingle P s'.params := by
    refine Post.ite (fun _ => post_pure fun hheld q hq => ?_) fun _ => post_pure fun hheld q hq => ?_
    all_goals
      have hmem : q = p ∨ q ∈ s.params.single := by
        simp only [Parameters.single, List.mem_append, List.mem_singleton] at hq ⊢
        tauto
      rcases hmem with rfl | hmem
      · exact hp hheld
      · exact hs q hmem
  refine hparam.behind.bind fun p c₁ h₁ => h₁.behind.bind fun b c₂ h₂ => ?_
  cases b with
  | true => exact h₂.behind.bind fun fallback c₃ h₃ => hadd (h₃ _ _ rfl)
  | false => exact hadd (h₂ _ _ rfl)

section Lists

variable (hg : g.Tells) {typed : Bool} {I : Cursor → Prop} (hI : Cursor.Lasts I)
  (hparam : ∀ c, I c → Post (boundParam g typed) c fun p c' => c'.held = none → P p)

include hg hI hparam

theorem paramItems_each (fuel : Nat) {s : ParamState} (hs : c.held = none → EachSingle P s.params)
    (h : I c) :
    Post (paramItems g typed fuel s) c fun s' c' => c'.held = none → EachSingle P s'.params := by
  induction fuel generalizing s c with
  | zero => exact post_pure hs
  | succ fuel ih =>
    refine (post_accept.and post_accept_settled).bind fun b c₁ h₁ => ?_
    rcases h₁ with ⟨⟨rfl, t, ht, -⟩ | ⟨rfl, rfl⟩, h₁⟩
    · have hs := hs (h₁.resolve_right (by simp)).2
      have hc₁ := hI c c₁ h ht.moves
      refine looks_nextIs.bind fun b => Post.ite (fun _ => ?_) fun _ => post_pure fun _ => hs
      have hitem := paramItem_each (fun _ => hs) (hparam c₁ hc₁)
      refine ((plain_paramItem hg typed s c₁).and hitem).bind fun s' c₂ h₂ => ?_
      exact ih h₂.2 (hI c₁ c₂ hc₁ h₂.1.1.moves)
    · exact post_pure hs

/-- What holds of every parameter that is read holds of the whole list. -/
theorem paramList_each {closer : Operator} (h : I c) :
    Post (paramList g typed closer) c fun ps c' => c'.held = none → EachSingle P ps := by
  have hstart : EachSingle P ParamState.start.params := by
    intro p hp
    cases hp
  refine looks_isNext.bind fun b => Post.ite (fun _ => post_pure fun _ => hstart) fun _ => ?_
  refine looks_nextIs.bind fun b => Post.ite (fun _ => ?_) fun _ => post_unexpected
  have hitem := paramItem_each (fun _ => hstart) (hparam c h)
  refine ((plain_paramItem hg typed _ c).and hitem).bind fun s c₁ h₁ => ?_
  have hc₁ := hI c c₁ h h₁.1.1.moves
  refine (paramItems_each hg hI hparam g.fuel h₁.2 hc₁).bind fun s' c₂ h₂ => ?_
  simp only
  split
  · intro ps c' hps hheld
    obtain ⟨-, rfl⟩ := Prod.mk.inj (Except.ok.inj hps)
    cases hc₂ : c₂.held <;> simp [hc₂] at hheld
  · exact post_pure h₂

end Lists

theorem paramName_named (hint : Option (Parser Expr)) (h : c.At t) :
    Post (paramName hint) c fun p _ => Identifier.IsWhole p.name := by
  refine Post.here ((post_identifier_named h).bind fun name c₁ h₁ => ?_)
  cases hint with
  | none => exact Post.span (post_pure h₁.1)
  | some rule =>
    refine Post.any fun b c₂ => Post.ite (fun _ => ?_) fun _ => Post.span (post_pure h₁.1)
    exact Post.any fun e c₃ => Post.span (post_pure h₁.1)

/-- Parameters without a repetition have different names. -/
theorem repeatedParam?_none {names : List Text} {ps : List (Parameter Expr)}
    (h : repeatedParam? names ps = none) :
    (ps.map (·.name)).Nodup ∧ ∀ p ∈ ps, p.name ∉ names := by
  induction ps generalizing names with
  | nil => simp
  | cons p ps ih =>
    unfold repeatedParam? at h
    split at h
    · cases h
    · rename_i hp
      obtain ⟨hnodup, hlater⟩ := ih h
      refine ⟨List.nodup_cons.mpr ⟨fun hm => ?_, hnodup⟩, List.forall_mem_cons.mpr ⟨?_, ?_⟩⟩
      · obtain ⟨q, hq, hname⟩ := List.mem_map.mp hm
        exact hlater q hq (by simp [hname])
      · simpa using hp
      · exact fun q hq hm => hlater q hq (List.mem_cons_of_mem _ hm)

/-- A repeated name is held as a fault. -/
theorem post_checkNames (ps : Parameters Expr) :
    Post (checkNames ps) c fun _ c' => c'.held = none → (ps.single.map (·.name)).Nodup := by
  unfold checkNames
  simp only
  split
  · intro x c' hx hheld
    obtain ⟨-, rfl⟩ := Prod.mk.inj (Except.ok.inj hx)
    simp at hheld
  · rename_i hnone
    refine post_pure fun _ => ?_
    have hall := (repeatedParam?_none (Option.eq_none_iff_forall_ne_some.mpr hnone)).1
    rw [List.append_assoc, List.map_append] at hall
    exact (List.nodup_append.mp hall).1

end Expression

namespace Statement

open Syntax.Parser Expression

variable {g : Grammar} {t : Text} {c : Cursor} {P : FunctionHead → Prop}

def Settles (block : Block) : Prop :=
  ∀ c, Post block c fun _ _ => c.held = none

theorem settles_block (n : Nat) : Settles (block g n) := by
  intro c
  cases n with
  | zero => exact post_unexpected
  | succ n => exact post_expect_settled.bind fun _ c' hheld => fun _ _ _ => hheld

variable {block : Block}

section Others

def GivesOther (p : Parser Stmt) : Prop :=
  ∀ P c, Post p c fun s _ => s.HasHead P

theorem other_branches (start fuel : Nat) : GivesOther (branches g block start fuel) := by
  intro P c
  cases fuel with
  | zero => exact post_unexpected
  | succ fuel =>
    refine Post.any fun test c₁ => Post.any fun body c₂ => Post.any fun next c₃ => ?_
    refine Post.any fun b c₄ => Post.ite (fun _ => ?_) fun _ => ?_
    · exact Post.any fun later c₅ => post_pure trivial
    · exact Post.any fun orelse c₅ => post_pure trivial

theorem other_whileLoop (start : Nat) : GivesOther (whileLoop g block start) := by
  intro P c
  refine Post.any fun test c₁ => Post.any fun body c₂ => ?_
  exact Post.any fun orelse c₃ => post_pure trivial

theorem other_forLoop (start : Nat) (isAsync : Bool) :
    GivesOther (forLoop g block start isAsync) := by
  intro P c
  refine Post.any fun target c₁ => Post.any fun _ c₂ => Post.any fun source c₃ => ?_
  exact Post.any fun body c₄ => Post.any fun orelse c₅ => post_pure trivial

theorem other_withBlock (start : Nat) (isAsync : Bool) :
    GivesOther (withBlock g block start isAsync) := by
  intro P c
  exact Post.any fun found c₁ => Post.any fun body c₂ => post_pure trivial

theorem other_tryBlock (start : Nat) : GivesOther (tryBlock g block start) := by
  intro P c
  refine Post.any fun body c₁ => Post.any fun b c₂ => Post.any fun k? c₃ => ?_
  refine Post.any fun handlers c₄ => ?_
  have hfinale (orelse : List Stmt) (c₅ : Cursor) {make : List Stmt → Stmt}
      (h : ∀ ss, (make ss).HasHead P) : Post (acceptWord .finallyWord >>= fun b =>
        if b = true then block >>= fun finale => pure (make finale)
        else if handlers.isEmpty = true then unexpected >>= fun finale => pure (make finale)
        else pure (make [])) c₅ fun s _ => s.HasHead P := by
    refine Post.any fun b c₆ => Post.ite (fun _ => Post.any fun _ _ => post_pure (h _)) fun _ => ?_
    exact Post.ite (fun _ => Post.any fun _ _ => post_pure (h _)) fun _ => post_pure (h _)
  exact Post.ite (fun _ => hfinale [] c₄ fun _ => trivial) fun _ =>
    Post.any fun orelse c₅ => hfinale orelse c₅ fun _ => trivial

theorem other_matchOn (start : Nat) : GivesOther (matchOn g block start) := by
  intro P c
  refine Post.any fun start c₁ => Post.any fun found c₂ => Post.any fun subject c₃ => ?_
  refine Post.any fun _ c₄ => Post.any fun _ c₅ => Post.any fun _ c₆ => Post.any fun first c₇ => ?_
  exact Post.any fun rest c₈ => Post.any fun _ c₉ => post_pure trivial

theorem other_classDef (start : Nat) (decorators : List Expr) :
    GivesOther (classDef g block start decorators) := by
  intro P c
  refine Post.any fun name c₁ => Post.any fun typeParams c₂ => Post.any fun b c₃ => ?_
  refine Post.ite (fun _ => Post.any fun found c₄ => Post.any fun _ c₅ => ?_) fun _ => ?_
  · exact Post.pure_bind (Post.any fun body c₆ => post_pure trivial)
  · exact Post.pure_bind (Post.any fun body c₆ => post_pure trivial)

end Others

section Rules

variable (hg : g.Tells)

include hg

theorem line_heads (fuel : Nat) (c : Cursor) :
    Post (line g fuel) c fun ss _ => ∀ s ∈ ss, s.HasHead P := by
  have hsimple {c₁ c₂ : Cursor} {s : Stmt} (h : ToldStmt c₁ c₂ s) : s.HasHead P := by
    cases s with
    | function => exact absurd h.blocks (by simp [Stmt.blocks])
    | _ => trivial
  induction fuel generalizing c with
  | zero => exact post_unexpected
  | succ fuel ih =>
    refine (told_simple hg (c := c)).bind fun s c₁ h₁ => Post.any fun b c₂ => ?_
    have hone : ∀ s' ∈ [s], s'.HasHead P := by simpa using hsimple h₁
    refine Post.ite (fun _ => Post.any fun b c₃ => ?_) fun _ => Post.any fun _ _ => post_pure hone
    refine Post.ite (fun _ => post_pure hone) fun _ => (ih c₃).bind fun ss c₄ hss => post_pure ?_
    exact List.forall_mem_cons.mpr ⟨hsimple h₁, hss⟩

section Definitions

variable {I : Cursor → Prop} (hI : Cursor.Lasts I)
  (hdef : ∀ start isAsync decorators c, I c →
    Post (functionDef g block start isAsync decorators) c fun s _ => s.HasHead P)

include hI hdef

theorem decorated_heads (h : I c) :
    Post (decorated g block) c fun s _ => s.HasHead P := by
  refine (moves_decorators hg c).bind fun decorators c₁ h₁ => Post.here ?_
  refine Post.accept rfl (fun c₂ h₂ => other_classDef _ _ P c₂) ?_
  refine (reaches_accept rfl c₁).bind fun isAsync c₂ h₂ => Post.expect rfl fun c₃ h₃ => ?_
  exact hdef _ _ _ c₃ (hI c c₃ h (h₁.trans (h₂.trans h₃.reaches).moves))

/-- What holds of the heads that the rule for definitions gives holds of every statement. -/
theorem statement_heads (h : I c) :
    Post (statement g block) c fun ss _ => ∀ s ∈ ss, s.HasHead P := by
  have hone {p : Parser Stmt} {c₁ : Cursor} (h : Post p c₁ fun s _ => s.HasHead P) :
      Post (p >>= fun s => pure [s]) c₁ fun ss _ => ∀ s ∈ ss, s.HasHead P :=
    h.bind fun s c' hs => post_pure (by simpa using hs)
  refine Post.here (Post.kind fun k? hk => ?_)
  split
  · rename_i w
    have htake {f : Unit → Parser (List Stmt)} (hf : ∀ c', I c' →
        Post (f ()) c' fun ss _ => ∀ s ∈ ss, s.HasHead P) :
        Post (take >>= f) c fun ss _ => ∀ s ∈ ss, s.HasHead P :=
      Post.take hk fun x c' hx hkind => hf c' (hI c c' h hx.moves)
    split
    · exact htake fun c₁ _ => hone (other_branches _ _ P c₁)
    · exact htake fun c₁ _ => hone (other_whileLoop _ P c₁)
    · exact htake fun c₁ _ => hone (other_forLoop _ _ P c₁)
    · exact htake fun c₁ _ => hone (other_tryBlock _ P c₁)
    · exact htake fun c₁ _ => hone (other_withBlock _ _ P c₁)
    · exact htake fun c₁ _ => hone (other_matchOn _ P c₁)
    · exact htake fun c₁ h₁ => hone (hdef _ _ _ c₁ h₁)
    · exact htake fun c₁ _ => hone (other_classDef _ _ P c₁)
    · refine htake fun c₁ h₁ => Post.accept rfl (fun c₂ _ => hone (other_forLoop _ _ P c₂)) ?_
      refine Post.accept rfl (fun c₂ _ => hone (other_withBlock _ _ P c₂)) ?_
      exact Post.expect rfl fun c₂ h₂ => hone (hdef _ _ _ c₂ (hI c₁ c₂ h₁ h₂.moves))
    · exact line_heads hg g.fuel c
  · exact hone (decorated_heads hg hI hdef h)
  · exact line_heads hg g.fuel c

end Definitions

/-- What holds of the heads that the rule for definitions gives holds of a whole text. -/
theorem module_heads {I : Cursor → Prop} (hI : Cursor.Lasts I)
    (hdef : ∀ start isAsync decorators c, I c →
      Post (functionDef g (Statement.block g g.fuel) start isAsync decorators) c
        fun s _ => s.HasHead P) (fuel : Nat) (h : I c) :
    Post (module g fuel) c fun ss _ => ∀ s ∈ ss, s.HasHead P := by
  induction fuel generalizing c with
  | zero => exact post_unexpected
  | succ fuel ih =>
    refine Post.kind fun k? hk => ?_
    split
    · exact Post.any fun _ _ => post_pure (by simp)
    · exact Post.take hk fun x c₁ h₁ _ => ih (hI c c₁ h h₁.moves)
    · have hlays := lays_statement (t := []) hg (lays_block hg g.fuel) c
      refine (hlays.and (statement_heads hg hI hdef h)).bind fun found c₁ h₁ => ?_
      refine (ih (hI c c₁ h h₁.1.2.moves)).bind fun rest c₂ h₂ => post_pure fun s hs => ?_
      exact (List.mem_append.mp hs).elim (h₁.2 s) (h₂ s)

/-- The names in a head are names as the text has them, each parameter with its own. -/
theorem functionDef_named (hblock : Settles block) {start : Nat} {isAsync : Bool}
    {decorators : List Expr} (h : c.At t) :
    Post (functionDef g block start isAsync decorators) c
      fun s _ => s.HasHead FunctionHead.IsNamed := by
  refine (post_identifier_named h).bind fun name c₁ h₁ => ?_
  have hc₁ := (h.moves h₁.2.moves).1
  refine (reaches_typeParams hg c₁).bind fun typeParams c₂ h₂ => Post.expect rfl fun c₃ h₃ => ?_
  have hc₃ := (hc₁.moves (h₂.trans h₃.reaches).moves).1
  have hparam (c : Cursor) (hc : c.At t) : Post (boundParam g true) c
      fun p c' => c'.held = none → Identifier.IsWhole p.name :=
    boundParam_each (fun _ _ hp => hp) (paramName_named _ hc)
  refine (paramList_each hg (Cursor.lasts_at t) hparam hc₃).bind fun params c₄ h₄ => ?_
  refine post_expect_settled.bind fun _ c₅ hheld₄ => ?_
  refine (post_checkNames params).bind fun _ c₆ h₆ => ?_
  -- The arrow or else the block would raise the fault of a repeated name.
  refine post_accept_settled.bind fun b c₇ h₇ => ?_
  rcases h₇ with ⟨rfl, hheld⟩ | ⟨rfl, rfl⟩
  · refine Post.ite (fun _ => ?_) fun hb => absurd rfl hb
    exact Post.any fun returns c₈ => Post.any fun body c₉ => post_pure ⟨h₁.1, h₄ hheld₄, h₆ hheld⟩
  · refine Post.ite (fun hb => absurd hb Bool.false_ne_true) fun _ => ?_
    exact Post.pure_bind ((hblock c₇).bind fun body c₈ hheld =>
      post_pure ⟨h₁.1, h₄ hheld₄, h₆ hheld⟩)

end Rules

end Statement

/-- The heads of the functions at the top level of a parsed text have what the rule for definitions
gives them, at every level of the grammar. -/
theorem parse_heads [CharacterNames] {t : Text} {body : List Stmt} {P : FunctionHead → Prop}
    {I : Cursor → Prop} (hI : Cursor.Lasts I)
    (hstart : I ⟨(Stream.ofText t 0 true).tokens, (Stream.ofText t 0 true).fault, 0, none⟩)
    (hdef : ∀ start isAsync decorators c, I c →
      Parser.Post (Statement.functionDef (Grammar.level (2 * t.length + 8))
        (Statement.block (Grammar.level (2 * t.length + 8)) (2 * t.length + 8)) start isAsync
          decorators) c fun s _ => s.HasHead P)
    (h : parse t = .ok body) {span : Span} {head : FunctionHead} {inner : List Stmt}
    (hs : .function span head inner ∈ body) : P head := by
  unfold parse at h
  simp only at h
  split at h
  · rename_i c' hmodule
    obtain rfl := Except.ok.inj h
    exact Statement.module_heads (Grammar.level_tells _) hI hdef _ hstart _ _ hmodule _ hs
  · cases h

/-- The heads of the functions at the top level of a parsed text. -/
theorem parse_named [CharacterNames] {t : Text} {body : List Stmt} (h : parse t = .ok body)
    {span : Span}
    {head : FunctionHead} {inner : List Stmt} (hs : .function span head inner ∈ body) :
    head.IsNamed := by
  refine parse_heads (Cursor.lasts_at t) (Cursor.at_start t) (fun start isAsync decorators c hc => ?_)
    h hs
  exact Statement.functionDef_named (Grammar.level_tells _) (Statement.settles_block _) hc

end Pagewright.Syntax
