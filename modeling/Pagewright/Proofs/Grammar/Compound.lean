import Pagewright.Proofs.Grammar.Placing

namespace Pagewright.Syntax

namespace Statement

open Syntax.Parser Expression

variable {g : Grammar} {t : Text} {c c' c₀ : Cursor}

/-- A rule for blocks that have statements, each in its place. -/
def Lays (t : Text) (block : Block) : Prop :=
  ∀ c, Post block c fun ss c' => ss ≠ [] ∧ Laid t c c' ss

/-- A statement that lies in the text from one cursor to another one. -/
abbrev LaidStmt (t : Text) (c c' : Cursor) (s : Stmt) : Prop :=
  Laid t c c' [s]

/-- Parts with blocks of their own, one after the other. -/
theorem post_manyBlocks {α : Type} {f : α → List Stmt} {P : α → Prop} {more : Parser Bool}
    {part : Parser α} (hmore : Looks more)
    (hpart : ∀ c, Post part c fun x c' => Laid t c c' (f x) ∧ P x) (fuel : Nat) (c : Cursor) :
    Post (manyWhile more part fuel) c fun xs c' =>
      Laid t c c' (xs.map f).flatten ∧ ∀ x ∈ xs, P x := by
  induction fuel generalizing c with
  | zero => exact post_pure ⟨laid_nil (.refl c), by simp⟩
  | succ fuel ih =>
    refine hmore.bind fun b => ?_
    split
    · refine (hpart c).bind fun x c₁ h₁ => (ih c₁).bind fun xs c₂ h₂ => post_pure ?_
      exact ⟨h₁.1.append h₂.1, List.forall_mem_cons.mpr ⟨h₁.2, h₂.2⟩⟩
    · exact post_pure ⟨laid_nil (.refl c), by simp⟩

theorem moves_expectIndent (c : Cursor) : Post expectIndent c fun _ c' => c.Moves c' := by
  refine Post.acceptToken (fun tok c₁ h₁ _ => post_pure h₁.moves) ?_
  refine Post.next ?_
  split
  · exact post_fault
  · exact Post.get post_fault

/-- The last of some parts that have statements stops where the last statement of them all
stops. -/
theorem lastStop_parts {α : Type} {body : α → List Stmt} {stop : α → Nat} {xs : List α}
    (start : Nat) (h : ∀ x ∈ xs, body x ≠ [] ∧ stop x = lastStop start (body x)) :
    (xs.getLast?.map stop).getD start = lastStop start (xs.map body).flatten := by
  rcases List.eq_nil_or_concat xs with rfl | ⟨ys, x, rfl⟩
  · rfl
  · obtain ⟨hne, hstop⟩ := h x (by simp)
    rw [List.concat_eq_append, List.getLast?_concat, Option.map_some, Option.getD_some, hstop,
      List.map_append, List.flatten_append, ← lastStop_append]
    simpa using lastStop_eq hne

section Rules

variable (hg : g.Tells)

include hg

/-- The statements of a line lie one after the other. -/
theorem lays_line (fuel : Nat) : Lays t (line g fuel) := by
  induction fuel with
  | zero => exact fun c => post_unexpected
  | succ fuel ih =>
    intro c
    refine (told_simple hg (c := c)).bind fun s c₁ h₁ => ?_
    refine Post.accept rfl (fun c₂ h₂ => ?_) ?_
    · refine Post.acceptToken (fun tok c₃ h₃ _ => post_pure ?_) ?_
      · exact ⟨by simp, h₁.laid.after (h₂.moves.trans h₃.moves)⟩
      · refine (ih c₂).bind fun ss c₃ h₃ => post_pure ?_
        exact ⟨by simp, h₁.laid.append (h₃.2.before h₂.moves)⟩
    · exact Post.expectToken fun tok c₂ h₂ _ => post_pure ⟨by simp, h₁.laid.after h₂.moves⟩

theorem plain_withItem : Plain (withItem g) := by
  intro c
  refine (hg.test c).bind fun value c₁ h₁ => ?_
  refine Post.optionalAfter rfl hg.operand.plain fun target c₂ h₂ => post_pure ?_
  exact ⟨h₁.1.trans h₂, trivial⟩

omit hg in
/-- A rule may ask for a token without taking it. -/
theorem post_followed {α : Type} {k : TokenKind} {x : α} {P : α → Cursor → Prop} (h : P x c) :
    Post (do
      if !(← isNext k) then unexpected
      return x) c P := by
  refine looks_isNext.bind fun b => ?_
  cases b with
  | true => exact post_pure h
  | false => exact post_unexpected.bind fun _ _ h => h

theorem reaches_withItems (c : Cursor) :
    Post (withItems g) c fun _ c' => c.Reaches c' := by
  have hbracketed : Post (bracketedItems g) c fun _ c' => c.Reaches c' := by
    refine Post.expect rfl fun c₁ h₁ => ?_
    refine (post_items extends_true (plain_withItem hg) g.fuel starts c₁).bind fun r c₂ h₂ => ?_
    refine Post.expect rfl fun c₃ h₃ => post_followed ?_
    exact (h₁.trans (h₂.1.trans h₃.reaches).reaches).reaches
  have hopen : Post (openItems g) c fun _ c' => c.Reaches c' := by
    refine (post_separated extends_true (plain_withItem hg) g.fuel c).bind fun found c₁ h₁ => ?_
    exact post_followed h₁.1.reaches
  intro found c' h
  unfold withItems at h
  split at h
  · rename_i hr
    exact hbracketed found c' (hr.trans h)
  · split at h
    · rename_i hr
      exact hopen found c' (hr.trans h)
    · cases h

/-- Decorators before a definition have no statement. -/
theorem moves_decorators (c : Cursor) :
    Post (manyWhile (isSymbolNext .atSign) (decorator g) g.fuel) c fun _ c' => c.Moves c' := by
  have hdecorator (c : Cursor) : Post (decorator g) c fun _ c' => Laid [] c c' [] ∧ True := by
    refine Post.expect rfl fun c₁ h₁ => (told_named hg c₁).bind fun e c₂ h₂ => ?_
    refine Post.expectToken fun tok c₃ h₃ _ => post_pure ⟨laid_nil ?_, trivial⟩
    exact (h₁.trans h₂.1.reaches).moves.trans h₃.moves
  exact (post_manyBlocks (f := fun _ => []) looks_isNext hdecorator g.fuel c).mono
    fun _ _ h => h.1.moves

variable {block : Block} (hblock : Lays t block)

include hblock

omit hg in
theorem post_elseBlock (c : Cursor) :
    Post (elseBlock block) c fun ss c' => Laid t c c' ss := by
  refine Post.accept rfl (fun c₁ h₁ => ?_) (post_pure (laid_nil (.refl c)))
  exact (hblock c₁).mono fun ss c₂ h₂ => h₂.2.before h₁.moves

omit hg in
/-- A last block, which may be missing unless it is the only one. -/
theorem post_finally {isOnly : Bool} {f : List Stmt → Parser Stmt} {Q : Stmt → Cursor → Prop}
    (hf : ∀ finale c', Laid t c c' finale → Post (f finale) c' Q) :
    Post (acceptWord .finallyWord >>= fun b => if b = true then block >>= f
      else if isOnly = true then unexpected >>= f else pure [] >>= f) c Q := by
  refine Post.accept rfl (fun c₁ h₁ => ?_) ?_
  · exact (hblock c₁).bind fun finale c₂ h₂ => hf finale c₂ (h₂.2.before h₁.moves)
  · refine Post.ite (fun h => absurd h Bool.false_ne_true) fun _ => ?_
    refine Post.ite (fun _ => ?_) fun _ => hf [] c (laid_nil (.refl c))
    exact post_unexpected.bind fun _ _ h => h

/-- A chain of branches lies behind its first word, the later ones inside the earlier. -/
theorem laid_branches (fuel : Nat) (h₀ : c₀.Passes c) :
    Post (branches g block c₀.here fuel) c fun s c' => LaidStmt t c₀ c' s := by
  induction fuel generalizing c₀ c with
  | zero => exact post_unexpected
  | succ fuel ih =>
    refine (told_named hg c).bind fun test c₁ h₁ => ?_
    refine (hblock c₁).bind fun body c₂ h₂ => ?_
    have hstart := h₀.trans h₁.1.reaches
    refine Post.here (Post.accept rfl (fun c₃ h₃ => ?_) ?_)
    · refine (ih h₃).bind fun later c₄ h₄ => post_pure ?_
      refine laid_compound hstart ?_ (by simp [Stmt.blocks]) ?_
      · simp [Stmt.span, Stmt.blocks, lastStop]
      · simpa [Stmt.blocks] using h₂.2.append h₄
    · refine (post_elseBlock hblock c₂).bind fun orelse c₃ h₃ => post_pure ?_
      refine laid_compound hstart ?_ (by simp [Stmt.blocks, h₂.1]) ?_
      · simp [Stmt.span, Stmt.blocks, lastStop_append]
      · simpa [Stmt.blocks] using h₂.2.append h₃

omit hg in
/-- A statement of one block. -/
theorem laid_oneBlock {make : List Stmt → Stmt} (hstart : c₀.Passes c)
    (hspan : ∀ body, (make body).span = ⟨c₀.here, lastStop c₀.here body⟩)
    (hblocks : ∀ body, (make body).blocks = [body]) :
    Post (block >>= fun body => pure (make body)) c fun s c' => LaidStmt t c₀ c' s := by
  refine (hblock c).bind fun body c₁ h₁ => post_pure ?_
  have hbody : (make body).blocks.flatten = body := by simp [hblocks]
  refine laid_compound hstart ?_ ?_ ?_
  · rw [hspan, hbody]
  · rw [hbody]
    exact h₁.1
  · rw [hbody]
    exact h₁.2

omit hg in
/-- A statement of a block and perhaps an `else` block. -/
theorem laid_twoBlocks {make : List Stmt → List Stmt → Stmt} (hstart : c₀.Passes c)
    (hspan : ∀ body orelse,
      (make body orelse).span = ⟨c₀.here, lastStop (lastStop c₀.here body) orelse⟩)
    (hblocks : ∀ body orelse, (make body orelse).blocks = [body, orelse]) :
    Post (block >>= fun body => elseBlock block >>= fun orelse => pure (make body orelse)) c
      fun s c' => LaidStmt t c₀ c' s := by
  refine (hblock c).bind fun body c₁ h₁ => ?_
  refine (post_elseBlock hblock c₁).bind fun orelse c₂ h₂ => post_pure ?_
  have hflat : (make body orelse).blocks.flatten = body ++ orelse := by simp [hblocks]
  refine laid_compound hstart ?_ ?_ ?_
  · rw [hspan, hflat, lastStop_append]
  · simp [hflat, h₁.1]
  · rw [hflat]
    exact h₁.2.append h₂

theorem laid_whileLoop (h₀ : c₀.Passes c) :
    Post (whileLoop g block c₀.here) c fun s c' => LaidStmt t c₀ c' s := by
  refine (told_named hg c).bind fun test c₁ h₁ => ?_
  exact laid_twoBlocks hblock (h₀.trans h₁.1.reaches) (fun _ _ => rfl) (fun _ _ => rfl)

theorem laid_forLoop (isAsync : Bool) (h₀ : c₀.Passes c) :
    Post (forLoop g block c₀.here isAsync) c fun s c' => LaidStmt t c₀ c' s := by
  refine (told_targetList hg c).bind fun target c₁ h₁ => Post.expect rfl fun c₂ h₂ => ?_
  refine (told_testList hg c₂).bind fun source c₃ h₃ => ?_
  have hstart := h₀.trans (h₁.1.trans (h₂.trans h₃.1.reaches).reaches).reaches
  exact laid_twoBlocks hblock hstart (fun _ _ => rfl) (fun _ _ => rfl)

/-- The body of a handler lies behind its head, and the handler ends where its body does. -/
theorem post_handler (isGrouped : Bool) (c : Cursor) :
    Post (handler g block isGrouped) c fun h c' => Laid t c c' h.body ∧
      (h.body ≠ [] ∧ ∀ start, h.span.stop = lastStop start h.body) := by
  refine Post.here (Post.expect rfl fun c₁ h₁ => ?_)
  have hrest {c₂ : Cursor} (h₂ : c₁.Reaches c₂) : Post (do
      if !isGrouped && (← isSymbolNext .colon) then
        let body ← block
        return (⟨⟨c.here, lastStop c.here body⟩, none, none, body⟩ : Handler Stmt)
      else
        let type ← g.test
        let name ← if ← acceptWord .asWord then some <$> identifier else pure none
        let body ← block
        return ⟨⟨c.here, lastStop c.here body⟩, some type, name, body⟩) c₂
      fun h c' => Laid t c c' h.body ∧
        (h.body ≠ [] ∧ ∀ start, h.span.stop = lastStop start h.body) := by
    refine looks_isNext.bind fun b => ?_
    split
    · refine (hblock c₂).bind fun body c₃ h₃ => post_pure ⟨?_, h₃.1, fun _ => lastStop_eq h₃.1⟩
      exact h₃.2.before (h₁.trans h₂).moves
    · refine (hg.test c₂).bind fun type c₃ h₃ => ?_
      refine Post.optionalAfter rfl plain_identifier fun name c₄ h₄ => ?_
      refine (hblock c₄).bind fun body c₅ h₅ => post_pure ⟨?_, h₅.1, fun _ => lastStop_eq h₅.1⟩
      exact h₅.2.before (h₁.trans (h₂.trans (h₃.1.trans h₄).reaches)).moves
  split
  · exact Post.expect rfl fun c₂ h₂ => hrest h₂.reaches
  · exact hrest (.refl c₁)

theorem laid_withBlock (isAsync : Bool) (h₀ : c₀.Passes c) :
    Post (withBlock g block c₀.here isAsync) c fun s c' => LaidStmt t c₀ c' s := by
  refine (reaches_withItems hg c).bind fun found c₁ h₁ => ?_
  exact laid_oneBlock hblock (h₀.trans h₁) (fun _ => rfl) (fun _ => rfl)

/-- The body of a function lies behind its head. -/
theorem laid_functionDef (isAsync : Bool) (decorators : List Expr) (h₀ : c₀.Passes c) :
    Post (functionDef g block c₀.here isAsync decorators) c fun s c' => LaidStmt t c₀ c' s := by
  refine Post.identifier fun name c₁ h₁ => ?_
  refine (reaches_typeParams hg c₁).bind fun typeParams c₂ h₂ => Post.expect rfl fun c₃ h₃ => ?_
  refine (reaches_paramList hg true .rightParen c₃).bind fun params c₄ h₄ => ?_
  refine Post.expect rfl fun c₅ h₅ => (reaches_checkNames params c₅).bind fun _ c₆ h₆ => ?_
  refine Post.optionalAfter rfl hg.test.plain fun returns c₇ h₇ => ?_
  have hstart := h₀.trans (h₁.trans (h₂.trans (h₃.trans (h₄.trans
    (h₅.trans (h₆.trans h₇)).reaches)).reaches)).reaches
  exact laid_oneBlock hblock hstart (fun _ => rfl) (fun _ => rfl)

/-- The body of a class lies behind its head. -/
theorem laid_classDef (decorators : List Expr) (h₀ : c₀.Passes c) :
    Post (classDef g block c₀.here decorators) c fun s c' => LaidStmt t c₀ c' s := by
  refine Post.identifier fun name c₁ h₁ => ?_
  refine (reaches_typeParams hg c₁).bind fun typeParams c₂ h₂ => ?_
  have hbody {c₃ : Cursor} (h₃ : c₂.Reaches c₃) (args : List Expr)
      (keywords : List (KeywordArg Expr)) : Post (do
        let body ← block
        return Stmt.classDef ⟨c₀.here, lastStop c₀.here body⟩ name args keywords decorators
          typeParams body) c₃ fun s c' => LaidStmt t c₀ c' s :=
    laid_oneBlock hblock (h₀.trans (h₁.trans (h₂.trans h₃)).reaches) (fun _ => rfl) (fun _ => rfl)
  refine Post.accept rfl (fun c₃ h₃ => ?_) (hbody (.refl c₂) [] [])
  refine (told_arguments hg c₃).bind fun found c₄ h₄ => Post.expect rfl fun c₅ h₅ => ?_
  exact hbody (h₃.trans (h₄.1.trans h₅.reaches)).reaches found.1 found.2

theorem laid_decorated (c : Cursor) :
    Post (decorated g block) c fun s c' => LaidStmt t c c' s := by
  refine (moves_decorators hg c).bind fun decorators c₁ h₁ => Post.here
    (Post.accept rfl (fun c₂ h₂ => ?_) ?_)
  · exact (laid_classDef hg hblock decorators h₂).mono fun s c' h => h.before h₁
  · refine (reaches_accept rfl c₁).bind fun isAsync c₂ h₂ => Post.expect rfl fun c₃ h₃ => ?_
    refine (laid_functionDef hg hblock isAsync decorators (h₂.passes h₃)).mono fun s c' h => ?_
    exact h.before h₁

theorem post_matchCase (c : Cursor) :
    Post (matchCase g block) c fun m c' => Laid t c c' m.body ∧ m.body ≠ [] := by
  refine Post.expect rfl fun c₁ h₁ => ?_
  refine (Pattern.plain_ofCase c₁).bind fun pattern c₂ h₂ => ?_
  refine Post.optionalAfter rfl (told_named hg).plain fun guard c₃ h₃ => ?_
  refine (hblock c₃).bind fun body c₄ h₄ => post_pure ⟨h₄.2.before ?_, h₄.1⟩
  exact (h₁.trans (h₂.1.trans h₃).reaches).moves

theorem laid_matchOn (h₀ : c₀.Passes c) :
    Post (matchOn g block c₀.here) c fun s c' => LaidStmt t c₀ c' s := by
  refine Post.here ?_
  refine (post_items extends_told (told_namedOrStar hg) g.fuel startsItem c).bind fun r c₁ h₁ => ?_
  refine (post_grouped h₁.1 h₁.2).bind fun subject c₂ h₂ => Post.expect rfl fun c₃ h₃ => ?_
  refine Post.expectToken fun newline c₄ h₄ _ => ?_
  refine (moves_expectIndent c₄).bind fun _ c₅ h₅ => ?_
  refine (post_matchCase hg hblock c₅).bind fun first c₆ h₆ => ?_
  refine (post_manyBlocks looks_isNext (post_matchCase hg hblock) g.fuel c₆).bind
    fun rest c₇ h₇ => Post.expectToken fun dedent c₈ h₈ _ => post_pure ?_
  obtain ⟨rfl, -⟩ := h₂
  have hwords := h₀.trans (h₁.1.trans h₃.reaches).reaches
  have hcases : Laid t c₅ c₇ ((first :: rest).map (·.body)).flatten := by
    simpa using h₆.1.append h₇.1
  have hbodies : ∀ m ∈ first :: rest,
      m.body ≠ [] ∧ lastStop c₀.here m.body = lastStop c₀.here m.body := by
    refine List.forall_mem_cons.mpr ⟨⟨h₆.2, rfl⟩, fun m hm => ⟨h₇.2 m hm, rfl⟩⟩
  refine laid_compound hwords ?_ ?_ ((hcases.before (h₄.moves.trans h₅)).after h₈.moves)
  · simp only [Stmt.span, Stmt.blocks]
    rw [lastStop_parts _ hbodies]
  · simp [Stmt.blocks, h₆.2]

theorem laid_tryBlock (h₀ : c₀.Passes c) :
    Post (tryBlock g block c₀.here) c fun s c' => LaidStmt t c₀ c' s := by
  refine (hblock c).bind fun body c₁ h₁ => ?_
  refine looks_isNext.bind fun b => Post.second ?_
  refine (post_manyBlocks looks_isNext (post_handler hg hblock _) g.fuel c₁).bind
    fun handlers c₂ h₂ => ?_
  have hdone {c₃ c₄ : Cursor} {orelse finale : List Stmt} (isGrouped : Bool)
      (h₃ : Laid t c₂ c₃ orelse) (h₄ : Laid t c₃ c₄ finale) : LaidStmt t c₀ c₄
        (.tryBlock ⟨c₀.here, lastStop (lastStop ((handlers.getLast?.map (·.span.stop)).getD
          (lastStop c₀.here body)) orelse) finale⟩ isGrouped body handlers orelse finale) := by
    refine laid_compound h₀ ?_ (by simp [Stmt.blocks, h₁.1]) ?_
    · have hlast := lastStop_parts (lastStop c₀.here body)
        fun h hh => ⟨(h₂.2 h hh).1, (h₂.2 h hh).2 _⟩
      simp [Stmt.span, Stmt.blocks, hlast, lastStop_append]
    · simpa [Stmt.blocks] using h₁.2.append (h₂.1.append (h₃.append h₄))
  refine Post.ite (fun _ => ?_) fun _ => ?_
  · refine Post.pure_bind (post_finally hblock fun finale c₃ h₃ => post_pure ?_)
    exact hdone _ (laid_nil (.refl c₂)) h₃
  · refine (post_elseBlock hblock c₂).bind fun orelse c₃ h₃ => ?_
    exact post_finally hblock fun finale c₄ h₄ => post_pure (hdone _ h₃ h₄)

/-- A statement of any kind lies behind the words before it. -/
theorem lays_statement : Lays t (statement g block) := by
  intro c
  have hone {p : Parser Stmt} {c₁ : Cursor} (h : Post p c₁ fun s c' => LaidStmt t c c' s) :
      Post (p >>= fun s => pure [s]) c₁ fun ss c' => ss ≠ [] ∧ Laid t c c' ss :=
    h.bind fun s c' hs => post_pure ⟨by simp, hs⟩
  refine Post.here (Post.kind fun k? hk => ?_)
  split
  · rename_i w
    have htake {f : Unit → Parser (List Stmt)} (h : ∀ c', c.Passes c' →
        Post (f ()) c' fun ss c'' => ss ≠ [] ∧ Laid t c c'' ss) :
        Post (take >>= f) c fun ss c' => ss ≠ [] ∧ Laid t c c' ss :=
      Post.take hk fun t c' ht hkind => h c' (passes_keyword ht hkind)
    split
    · exact htake fun c₁ h₁ => hone (laid_branches hg hblock g.fuel h₁)
    · exact htake fun c₁ h₁ => hone (laid_whileLoop hg hblock h₁)
    · exact htake fun c₁ h₁ => hone (laid_forLoop hg hblock false h₁)
    · exact htake fun c₁ h₁ => hone (laid_tryBlock hg hblock h₁)
    · exact htake fun c₁ h₁ => hone (laid_withBlock hg hblock false h₁)
    · exact htake fun c₁ h₁ => hone (laid_matchOn hg hblock h₁)
    · exact htake fun c₁ h₁ => hone (laid_functionDef hg hblock false [] h₁)
    · exact htake fun c₁ h₁ => hone (laid_classDef hg hblock [] h₁)
    · refine htake fun c₁ h₁ => Post.accept rfl (fun c₂ h₂ => ?_) ?_
      · exact hone (laid_forLoop hg hblock true (h₁.trans h₂.reaches))
      · refine Post.accept rfl (fun c₂ h₂ => ?_) (Post.expect rfl fun c₂ h₂ => ?_)
        · exact hone (laid_withBlock hg hblock true (h₁.trans h₂.reaches))
        · exact hone (laid_functionDef hg hblock true [] (h₁.trans h₂.reaches))
    · exact lays_line hg g.fuel c
  · exact hone (laid_decorated hg hblock c)
  · exact lays_line hg g.fuel c

theorem lays_indented (fuel : Nat) : Lays t (indented g block fuel) := by
  induction fuel with
  | zero => exact fun c => post_unexpected
  | succ fuel ih =>
    intro c
    refine (lays_statement hg hblock c).bind fun found c₁ h₁ => ?_
    refine Post.acceptToken (fun tok c₂ h₂ _ => post_pure ⟨h₁.1, h₁.2.after h₂.moves⟩) ?_
    refine (ih c₁).bind fun rest c₂ h₂ => post_pure ⟨?_, h₁.2.append h₂.2⟩
    simp [h₁.1]

theorem lays_blockOf : Lays t (blockOf g block) := by
  intro c
  refine Post.expect rfl fun c₁ h₁ => ?_
  refine Post.acceptToken (fun tok c₂ h₂ _ => ?_) ?_
  · refine (moves_expectIndent c₂).bind fun _ c₃ h₃ => ?_
    refine (lays_indented hg hblock g.fuel c₃).mono fun ss c₄ h₄ => ⟨h₄.1, h₄.2.before ?_⟩
    exact h₁.moves.trans (h₂.moves.trans h₃)
  · exact (lays_line hg g.fuel c₁).mono fun ss c₂ h₂ => ⟨h₂.1, h₂.2.before h₁.moves⟩

omit hblock in
theorem lays_block (n : Nat) : Lays t (Statement.block g n) := by
  induction n with
  | zero => exact fun c => post_unexpected
  | succ n ih => exact lays_blockOf hg ih

omit hblock in
theorem laid_module (fuel : Nat) (c : Cursor) :
    Post (module g fuel) c fun ss c' => Laid t c c' ss := by
  induction fuel generalizing c with
  | zero => exact post_unexpected
  | succ fuel ih =>
    refine Post.kind fun k? hk => ?_
    split
    · exact looks_settle.bind fun _ => post_pure (laid_nil (.refl c))
    · exact Post.take hk fun tok c₁ h₁ _ => (ih c₁).mono fun ss c' h => h.before h₁.moves
    · refine (lays_statement (t := t) hg (lays_block hg g.fuel) c).bind fun found c₁ h₁ => ?_
      exact (ih c₁).bind fun rest c₂ h₂ => post_pure (h₁.2.append h₂)

end Rules

end Statement

/-- The statements of a parsed text lie in it one after the other, each with its blocks in its
place, and those that are values alone or `from` imports are written there. -/
theorem parse_placed [CharacterNames] {t : Text} {body : List Stmt} (h : parse t = .ok body) :
    Block.Placed t 0 (Text.size t) body ∧ ∀ s ∈ body, s.Written t := by
  unfold parse at h
  simp only at h
  split at h
  · rename_i c' hmodule
    obtain rfl := Except.ok.inj h
    have hlaid := Statement.laid_module (t := t) (Grammar.level_tells _) _ _ _ _ hmodule
    have hat := Cursor.at_start t
    obtain ⟨horder, heach⟩ := hlaid.placed hat
    refine ⟨⟨horder.mono (Nat.le_refl 0) ?_, heach⟩, hlaid.written hat⟩
    exact (hat.moves hlaid.moves).1.cut.le_size
  · cases h

end Pagewright.Syntax
