import Pagewright.Proofs.Text.Closing
import Pagewright.Proofs.Text.Pieces
import Pagewright.Proofs.Wire.Declaration

namespace Pagewright.Wire

open Syntax

/-- A text that can stand inside a comment: it holds no end of one, and makes none with the star
that a text before it may end with. -/
def IsInner (t : Text) : Prop :=
  ¬['*', '/'] <:+: t ∧ t.head? ≠ some '/'

namespace IsInner

variable {s t : Text}

theorem append (hs : IsInner s) (ht : IsInner t) : IsInner (s ++ t) := by
  refine ⟨?_, ?_⟩
  · rw [Text.pair_infix_append, not_or, not_or]
    exact ⟨hs.1, ht.1, fun hmeet => ht.2 hmeet.2⟩
  · cases s with
    | nil => exact ht.2
    | cons c s => exact hs.2

theorem flatMap {α : Type} {f : α → Text} {xs : List α} (h : ∀ x ∈ xs, IsInner (f x)) :
    IsInner (xs.flatMap f) := by
  induction xs with
  | nil => exact ⟨by simp, by simp⟩
  | cons x xs ih =>
    rw [List.flatMap_cons]
    exact (h x (.head _)).append (ih fun y hy => h y (.tail _ hy))

theorem of_not_mem (h : '/' ∉ t) : IsInner t :=
  ⟨Text.not_pair_infix_of_not_mem (.inr h), fun hhead => h (List.mem_of_head? hhead)⟩

end IsInner

/-- Whatever the line is, its documentation stays inside the comment. -/
theorem isInner_docLine (line : Text) : IsInner (Client.docLine line) := by
  unfold Client.docLine
  split
  · exact .of_not_mem (by decide)
  · -- The blank before the line keeps the star of the margin apart from a slash it starts with.
    have hline : ¬['*', '/'] <:+: Text.replace line ['*', '/'] ['*', '\\', '/'] :=
      Text.not_pair_infix_replace (by decide) (by decide) (by decide) line
    refine ⟨?_, by simp⟩
    rw [Text.pair_infix_append, Text.pair_infix_append]
    simp [Text.pair_infix_cons, hline]

theorem slash_not_mem_typeName (ty : Option WireType) : '/' ∉ Client.typeName ty := by
  cases ty with
  | none => decide
  | some ty => cases ty <;> decide

theorem isInner_paramLine {p : Param} (hp : Identifier.IsWhole p.name) :
    IsInner (Client.paramLine p) := by
  have hname : '/' ∉ p.name := hp.not_mem (by decide +kernel)
  have hpieces : '/' ∉ " * @param \x7b".toList ∧ '/' ∉ "\x7d ".toList ∧ '/' ∉ "\n".toList := by
    decide +kernel
  refine .of_not_mem ?_
  unfold Client.paramLine
  simp only [List.mem_append, not_or]
  exact ⟨⟨⟨⟨hpieces.1, slash_not_mem_typeName _⟩, hpieces.2.1⟩, hname⟩, hpieces.2.2⟩

theorem star_not_mem_queryPart {p : Param} (hp : Identifier.IsWhole p.name) :
    '*' ∉ Client.queryPart p := by
  have hname : '*' ∉ p.name := hp.not_mem (by decide +kernel)
  unfold Client.queryPart
  split <;> simp [hname]

theorem star_not_mem_address {r : Route} (hname : Identifier.IsWhole r.name)
    (hparams : ∀ p ∈ r.params, Identifier.IsWhole p.name) : '*' ∉ Client.address r := by
  have hid : '*' ∉ r.name := hname.not_mem (by decide +kernel)
  have hquery : '*' ∉ Text.join ['&'] (r.params.map Client.queryPart) :=
    Text.not_mem_join (by decide) (List.forall_mem_map.mpr fun p hp =>
      star_not_mem_queryPart (hparams p hp))
  unfold Client.address
  dsimp only
  split <;> simp [hid, hquery]

theorem star_not_mem_declaration {r : Route} (hname : Identifier.IsWhole r.name)
    (hparams : ∀ p ∈ r.params, Identifier.IsWhole p.name) : '*' ∉ declaration r := by
  have hid : '*' ∉ r.name := hname.not_mem (by decide +kernel)
  have hids : '*' ∉ Text.join [',', ' '] (r.params.map (·.name)) :=
    Text.not_mem_join (by decide) (List.forall_mem_map.mpr fun p hp =>
      (hparams p hp).not_mem (by decide +kernel))
  unfold declaration
  simp [hid, hids, star_not_mem_address hname hparams]

def commentText (r : Route) : Text :=
  "/**\n" ++ (Text.lines (r.docstring.getD r.name)).flatMap Client.docLine
    ++ r.params.flatMap Client.paramLine
    ++ " * @returns \x7b" ++ Client.typeName r.returnType ++ "\x7d\n "

theorem isInner_returns (r : Route) :
    IsInner (" * @returns \x7b".toList ++ Client.typeName r.returnType ++ "\x7d\n ".toList) := by
  have hpieces : '/' ∉ " * @returns \x7b".toList ∧ '/' ∉ "\x7d\n ".toList := by decide
  refine .of_not_mem ?_
  simp only [List.mem_append, not_or]
  exact ⟨⟨hpieces.1, slash_not_mem_typeName _⟩, hpieces.2⟩

/-- No name, type or docstring line puts the end of a comment into it. -/
theorem not_infix_commentText {r : Route} (hparams : ∀ p ∈ r.params, Identifier.IsWhole p.name) :
    ¬['*', '/'] <:+: commentText r := by
  have hopen : ¬['*', '/'] <:+: "/**\n".toList := by decide
  have hdoc : IsInner ((Text.lines (r.docstring.getD r.name)).flatMap Client.docLine) :=
    .flatMap fun line _ => isInner_docLine line
  have hlist : IsInner (r.params.flatMap Client.paramLine) :=
    .flatMap fun p hp => isInner_paramLine (hparams p hp)
  have hlater := (hdoc.append hlist).append (isInner_returns r)
  have hsplit : commentText r = "/**\n".toList ++ ((Text.lines (r.docstring.getD r.name)).flatMap
      Client.docLine ++ r.params.flatMap Client.paramLine ++ (" * @returns \x7b".toList
        ++ Client.typeName r.returnType ++ "\x7d\n ".toList)) := by
    unfold commentText
    simp only [List.append_assoc]
  rw [hsplit, Text.pair_infix_append, not_or, not_or]
  exact ⟨hopen, hlater.1, fun hmeet => hlater.2 hmeet.2⟩

theorem function_comment (r : Route) :
    Client.function r = commentText r ++ '*' :: '/' :: ('\n' :: declaration r) := by
  have hclose : "\x7d\n */\n".toList = "\x7d\n ".toList ++ ['*', '/', '\n'] := by decide
  rw [function_text]
  unfold Client.docBlock commentText
  rw [hclose]
  simp only [List.append_assoc, List.cons_append, List.nil_append]

/-- Whatever the docstring is, a function of the client holds the mark that ends a comment in one
place only: behind the documentation of its result, directly before what it exports. -/
theorem comment_end_iff {r : Route} (hname : Identifier.IsWhole r.name)
    (hparams : ∀ p ∈ r.params, Identifier.IsWhole p.name) (before after : Text) :
    Client.function r = before ++ "*/" ++ after ↔
      before = "/**\n" ++ (Text.lines (r.docstring.getD r.name)).flatMap Client.docLine
        ++ r.params.flatMap Client.paramLine
        ++ " * @returns \x7b" ++ Client.typeName r.returnType ++ "\x7d\n " ∧
      after = "\n" ++ declaration r := by
  have hbefore : ¬['*', '/'] <:+: commentText r ++ ['*'] := by
    rw [Text.pair_infix_append]
    simp [not_infix_commentText hparams, Text.pair_infix_cons]
  have hafter : ¬['*', '/'] <:+: '/' :: '\n' :: declaration r :=
    Text.not_pair_infix_of_not_mem (.inl (by simp [star_not_mem_declaration hname hparams]))
  have hsplit : before ++ "*/" ++ after = before ++ '*' :: '/' :: after := by simp
  rw [function_comment, hsplit, Text.pair_split_iff hbefore hafter, eq_comm, eq_comm (b := after)]
  rfl

/-- A function with one parameter whose docstring tries to end the comment in several ways. -/
def starred : Route :=
  ⟨"save", [⟨"x", some "str", some .string, none⟩], none, some "*/\n**// and /*/", []⟩

theorem comment_end_iff_starred :
    Identifier.IsWhole starred.name ∧ (∀ p ∈ starred.params, Identifier.IsWhole p.name) ∧
    Client.function starred =
      "/**\n * *\\/\n * **\\// and /*\\/\n * @param \x7bstring\x7d x\n * @returns \x7bany\x7d\n "
        ++ "*/" ++ ("\n" ++ declaration starred) := by
  have hname : Identifier.IsWhole starred.name := .inl (by decide +kernel)
  have hparams : ∀ p ∈ starred.params, Identifier.IsWhole p.name :=
    List.forall_mem_singleton.mpr (.inl (by decide +kernel))
  exact ⟨hname, hparams, (comment_end_iff hname hparams _ _).mpr ⟨by decide +kernel, rfl⟩⟩

end Pagewright.Wire
