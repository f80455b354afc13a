import Pagewright.Proofs.Lexing.Lexeme

namespace Pagewright.Syntax

variable {f : Token → Token}

theorem headsBlock_map (hf : ∀ t, (f t).kind = t.kind) (ts : List Token)
    (first pendingLambda : Bool) (depth : Int) :
    headsBlock (ts.map f) first pendingLambda depth = headsBlock ts first pendingLambda depth := by
  induction ts generalizing first pendingLambda depth with
  | nil => rfl
  | cons t ts ih => simp only [List.map_cons, headsBlock, hf, ih]

theorem reachesEqual_map (hf : ∀ t, (f t).kind = t.kind) (ts : List Token) (depth : Int) :
    reachesEqual (ts.map f) depth = reachesEqual ts depth := by
  induction ts generalizing depth with
  | nil => rfl
  | cons t ts ih => simp only [List.map_cons, reachesEqual, hf, ih]

theorem headsAlias_map (hf : ∀ t, (f t).kind = t.kind) (ts : List Token) :
    headsAlias (ts.map f) = headsAlias ts := by
  cases ts with
  | nil => rfl
  | cons t ts => simp only [List.map_cons, headsAlias, hf, reachesEqual_map hf]

def TokenKind.token (k : TokenKind) : Token :=
  ⟨k, 0, 0⟩

/-- The kinds that remain of some kinds, words made names where they start no statement. -/
def softened (lineStart : Bool) (ks : List TokenKind) : List TokenKind :=
  (soften lineStart (ks.map TokenKind.token)).map Token.kind

theorem soften_kinds (lineStart : Bool) (ts : List Token) :
    (soften lineStart ts).map Token.kind = softened lineStart (ts.map Token.kind) := by
  have hf : ∀ t : Token, t.kind.token.kind = t.kind := fun _ => rfl
  unfold softened
  rw [List.map_map]
  induction ts generalizing lineStart with
  | nil => rfl
  | cons t ts ih =>
    simp only [List.map_cons, soften, Function.comp_apply, hf]
    rw [← headsBlock_map (f := TokenKind.token ∘ Token.kind) hf ts,
      ← headsAlias_map (f := TokenKind.token ∘ Token.kind) hf ts, ih]

end Pagewright.Syntax
