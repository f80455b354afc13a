import Pagewright.Syntax.Expression

namespace Pagewright.Syntax.Parser

/-- On tokens of the kinds `ks`, without a held fault, a rule gives a result with a property and
leaves tokens of the kinds `rest`. -/
def Gives {α : Type} (p : Parser α) (ks : List TokenKind) (P : α → Prop)
    (rest : List TokenKind) : Prop :=
  ∀ ts ending stop, ts.map Token.kind = ks → ∃ x ts' stop',
    p ⟨ts, ending, stop, none⟩ = .ok (x, ⟨ts', ending, stop', none⟩) ∧
      ts'.map Token.kind = rest ∧ P x

variable {α β : Type} {p : Parser α} {P Q : α → Prop} {ks mid rest : List TokenKind}
  {k : TokenKind}

theorem Gives.mono (h : Gives p ks P rest) (hPQ : ∀ x, P x → Q x) : Gives p ks Q rest := by
  intro ts ending stop hts
  obtain ⟨x, ts', stop', hp, hrest, hx⟩ := h ts ending stop hts
  exact ⟨x, ts', stop', hp, hrest, hPQ x hx⟩

theorem Gives.bind {f : α → Parser β} {Q : β → Prop} (h : Gives p ks P mid)
    (hf : ∀ x, P x → Gives (f x) mid Q rest) : Gives (p >>= f) ks Q rest := by
  intro ts ending stop hts
  obtain ⟨x, ts', stop', hp, hmid, hx⟩ := h ts ending stop hts
  obtain ⟨y, ts'', stop'', hy, hrest, hq⟩ := hf x hx ts' ending stop' hmid
  refine ⟨y, ts'', stop'', ?_, hrest, hq⟩
  simp only [Bind.bind, StateT.bind, Except.bind, hp, hy]

theorem gives_pure {x : α} (h : P x) : Gives (pure x) ks P ks :=
  fun ts _ stop hts => ⟨x, ts, stop, rfl, hts, h⟩

theorem gives_get : Gives (get : Parser Cursor) ks (fun _ => True) ks :=
  fun ts _ stop hts => ⟨_, ts, stop, rfl, hts, trivial⟩

theorem gives_next : Gives next? (k :: ks) (fun o => ∃ t, o = some t ∧ t.kind = k) (k :: ks) := by
  intro ts ending stop hts
  obtain ⟨t, ts', rfl, hk, -⟩ := List.map_eq_cons_iff.mp hts
  exact ⟨some t, t :: ts', stop, rfl, hts, t, rfl, hk⟩

theorem gives_kind : Gives kind? (k :: ks) (· = some k) (k :: ks) := by
  refine gives_next.bind fun o ho => ?_
  obtain ⟨t, rfl, rfl⟩ := ho
  exact gives_pure rfl

theorem gives_second : Gives second? (k :: ks) (· = ks.head?) (k :: ks) := by
  intro ts ending stop hts
  refine ⟨_, ts, stop, rfl, hts, ?_⟩
  obtain ⟨t, ts', rfl, -, rfl⟩ := List.map_eq_cons_iff.mp hts
  simp

theorem gives_here : Gives here (k :: ks) (fun _ => True) (k :: ks) :=
  gives_next.bind fun _ _ => gives_get.bind fun _ _ => gives_pure trivial

theorem gives_spanFrom {start : Nat} : Gives (spanFrom start) ks (fun _ => True) ks :=
  gives_get.bind fun _ _ => gives_pure trivial

theorem gives_take : Gives take (k :: ks) (fun _ => True) ks := by
  intro ts ending stop hts
  obtain ⟨t, ts', rfl, -, hrest⟩ := List.map_eq_cons_iff.mp hts
  exact ⟨(), ts', t.stop, rfl, hrest, trivial⟩

theorem gives_accept : Gives (accept k) (k :: ks) (· = true) ks := by
  refine gives_kind.bind fun x hx => ?_
  rw [hx, if_pos rfl]
  exact gives_take.bind fun _ _ => gives_pure rfl

theorem gives_accept_not {k' : TokenKind} (h : k' ≠ k) :
    Gives (accept k) (k' :: ks) (· = false) (k' :: ks) := by
  refine gives_kind.bind fun x hx => ?_
  rw [hx, if_neg fun he => h (Option.some.inj he)]
  exact gives_pure rfl

theorem gives_expect : Gives (expect k) (k :: ks) (fun _ => True) ks := by
  refine gives_accept.bind fun x hx => ?_
  rw [hx]
  exact gives_pure trivial

theorem gives_isNext {k' : TokenKind} :
    Gives (isNext k) (k' :: ks) (· = decide (k' = k)) (k' :: ks) := by
  refine gives_kind.bind fun x hx => gives_pure ?_
  rw [hx]
  simp

theorem gives_nextIs {test : TokenKind → Bool} :
    Gives (nextIs test) (k :: ks) (· = test k) (k :: ks) := by
  refine gives_kind.bind fun x hx => gives_pure ?_
  rw [hx]
  rfl

theorem gives_identifier {id : Text} : Gives identifier (.name id :: ks) (· = id) ks := by
  refine gives_kind.bind fun x hx => ?_
  rw [hx]
  exact gives_take.bind fun _ _ => gives_pure rfl

/-- No item where none starts. -/
theorem gives_manyWhile_nil {more : Parser Bool} {fuel : Nat}
    (h : Gives more ks (· = false) ks) : Gives (manyWhile more p fuel) ks (· = []) ks := by
  cases fuel with
  | zero => exact gives_pure rfl
  | succ fuel =>
    refine h.bind fun x hx => ?_
    rw [hx]
    exact gives_pure rfl

/-- One item alone where no comma follows. -/
theorem gives_items_one {starts : TokenKind → Bool} {fuel : Nat}
    (h : Gives p ks P (k :: rest)) (hk : k ≠ .operator .comma) :
    Gives (items fuel starts p) ks (fun r => ∃ x, r = ([x], false) ∧ P x) (k :: rest) := by
  refine h.bind fun x hx => ?_
  have hmore : Gives (moreItems starts p fuel) (k :: rest) (· = ([], false)) (k :: rest) := by
    cases fuel with
    | zero => exact gives_pure rfl
    | succ fuel =>
      refine (gives_accept_not hk).bind fun b hb => ?_
      rw [hb]
      exact gives_pure rfl
  refine hmore.bind fun r hr => ?_
  rw [hr]
  exact gives_pure ⟨x, rfl, hx⟩

end Pagewright.Syntax.Parser
