import Pagewright.Proofs.Wire.Fallbacks
import Pagewright.Route.Extraction

namespace Pagewright.Wire

open Syntax Syntax.Parser Syntax.Expression Syntax.Reader

/-- A line assigns a value to a name, places aside. -/
def Assigns [CharacterNames] (line name : Text) (value : Expr) : Prop :=
  ∃ span target e, parse line = .ok [.assign span [target] e] ∧ target.bare = nameTree name ∧
    e.bare = value

section Pasted

variable {id first w after : Text} {ks us : List TokenKind} {d : Nat} {before later : List Lexeme}
  {e value : Expr} {p : Param}

/-- A line that pastes a text between lexemes assigns what a rule gives on them. -/
theorem assigns_pasted [CharacterNames] (hp : Pasted w e ks after) (hwhole : Identifier.IsWhole id)
    (hfree : Identifier.IsFree id)
    (hbefore : Lexeme.Fit 0 (.space :: .symbol .equal :: before)
      (w ++ (later.flatMap Lexeme.text ++ ['\n'])))
    (hdepth : depthAfter 0 before = d) (hagain : Respells d d w after ks)
    (hrejoins : Rejoins after (later.flatMap Lexeme.text ++ ['\n']))
    (hlater : Lexeme.Fit d later ['\n']) (hclosed : depthAfter d later = 0)
    (hheads : id = Keyword.matchWord.text ∨ id = Keyword.caseWord.text →
      heads (before.flatMap Lexeme.kinds ++ ks ++ later.flatMap Lexeme.kinds ++ [TokenKind.newline])
        false false 0 = false)
    (hkinds : (before.flatMap Lexeme.kinds).map TokenKind.softer ++ (ks.map TokenKind.softer ++
      ((later.flatMap Lexeme.kinds).map TokenKind.softer ++ [TokenKind.newline])) = .name first :: us)
    (hvalue : ∀ n, load ks ≤ n →
      Gives (test (Grammar.level (n + 7))) (.name first :: us) (·.bare = value) [.newline]) :
    Assigns (id ++ (' ' :: '=' :: before.flatMap Lexeme.text ++
      (w ++ (later.flatMap Lexeme.text ++ ['\n'])))) id value := by
  obtain ⟨ts, hstream, hts⟩ := Stream.ofText_pasted hwhole hfree hbefore hdepth hagain hrejoins hlater
    hclosed hp.words hheads
  rw [hkinds] at hts
  have hload := hp.load
  generalize hline : id ++ (' ' :: '=' :: before.flatMap Lexeme.text ++
    (w ++ (later.flatMap Lexeme.text ++ ['\n']))) = line at hstream ⊢
  have hlength : w.length ≤ line.length := by
    rw [← hline]
    simp only [List.length_append, List.length_cons]
    omega
  obtain ⟨s, hparse, span, target, x, rfl, htarget, hx⟩ := Statement.parse_of_value hstream hts rfl
    (Statement.valueStatement_of_assign rfl (test_name rfl) (by simp) (by simp)
      (hvalue (2 * line.length) (by omega)))
  exact ⟨span, target, x, hparse, htarget, hx⟩

theorem decode_cast (hd : p.fallback = some w) (hl : p.wireType ≠ some .list)
    (ht : p.wireType ≠ some .table) : Server.decode p = "request.args.get('".toList ++ p.name ++
      "', default=".toList ++ w ++ ", type=".toList ++ castName p ++ ")".toList := by
  unfold Server.decode castName
  rw [hd]
  cases hty : p.wireType with
  | none => rfl
  | some ty =>
    cases ty with
    | list => exact absurd hty hl
    | table => exact absurd hty ht
    | _ => rfl

theorem castCloses_text (cast : Text) : (castCloses cast).flatMap Lexeme.text =
    ", type=".toList ++ cast ++ ")".toList := by
  simp only [castCloses, List.flatMap_cons, Lexeme.text]
  rfl

theorem castCloses_kinds {cast : Text} (h : cast ∈ castNames) :
    (castCloses cast).flatMap Lexeme.kinds =
      [.operator .comma, .keyword .typeWord, .operator .equal, .name cast, .operator .rightParen] := by
  simp only [castNames, List.mem_cons, List.not_mem_nil, or_false] at h
  rcases h with rfl | rfl | rfl <;> rfl

section Forms

variable [CharacterNames] (hp : Pasted w e ks after) (hwhole : Identifier.IsWhole p.name)
  (hfree : Identifier.IsFree p.name) (hd : p.fallback = some w)
include hp hwhole hfree hd

/-- A default that is an argument. -/
theorem assigns_cast (hl : p.wireType ≠ some .list) (ht : p.wireType ≠ some .table) :
    Assigns (Server.prologueLine [] p) p.name (fallbackTree p e.bare) := by
  obtain ⟨c, cs, rfl, -, -, hequal⟩ := hp.first_char
  have hkey := isHeld_of_whole hwhole
  have hcast := castName_mem p
  have htext : Server.prologueLine [] p = p.name ++ (' ' :: '=' :: (castOpens p.name).flatMap Lexeme.text ++
      (c :: cs ++ ((castCloses (castName p)).flatMap Lexeme.text ++ ['\n']))) := by
    rw [Server.prologueLine, decode_cast hd hl ht, castOpens_text, castCloses_text]
    simp only [List.nil_append, List.append_assoc, List.cons_append]
    rfl
  have htree : fallbackTree p e.bare = methodTree queryTree "get" [textTree p.name]
      [⟨some "default", e.bare⟩, ⟨some "type", nameTree (castName p)⟩] := by
    unfold fallbackTree
    split
    · exact absurd ‹_› hl
    · exact absurd ‹_› ht
    · rfl
  rw [htext, htree]
  have hkinds : ((castCloses (castName p)).flatMap Lexeme.kinds).map TokenKind.softer ++
      [TokenKind.newline] = .operator .comma :: castBehind (castName p) := by
    rw [castCloses_kinds hcast]
    rfl
  refine assigns_pasted hp hwhole hfree (castOpens_fit hkey ?_) rfl (hp.inside 0) (.cut rfl)
    (castCloses_fit hcast) rfl (fun _ => ?_) (by rw [hkinds]; rfl) fun n hn => ?_
  · rintro x ⟨⟩
    exact hequal
  · rw [castCloses_kinds hcast, List.append_assoc, List.append_assoc]
    exact hp.heads_inside 0 _
  · exact test_cast (n := n + 4) hkey (hp.test (n + 7) (by omega) (.operator .comma) _ rfl)

section Outside

variable (hw : OneLine w)
  (hcalm : p.name = Keyword.matchWord.text ∨ p.name = Keyword.caseWord.text →
    heads (ks ++ [TokenKind.newline]) false false 0 = false)
include hw hcalm

/-- A default behind `or`. -/
theorem assigns_list (hl : p.wireType = some .list) (htight : e.isLoose = false) :
    Assigns (Server.prologueLine [] p) p.name (fallbackTree p e.bare) := by
  have hagain := hp.outside hw
  obtain ⟨c, cs, rfl, -, hblank, -⟩ := hp.first_char
  have hkey := isHeld_of_whole hwhole
  have htext : Server.prologueLine [] p = p.name ++ (' ' :: '=' :: (listOpens p.name).flatMap Lexeme.text ++
      (c :: cs ++ (([] : List Lexeme).flatMap Lexeme.text ++ ['\n']))) := by
    rw [Server.prologueLine, Server.decode, hl, hd, listOpens_text]
    simp only [List.nil_append, List.append_assoc, List.cons_append]
    rfl
  rw [htext, fallbackTree, hl]
  refine assigns_pasted hp hwhole hfree (listOpens_fit hkey ?_) rfl hagain (.cut rfl) trivial rfl
    (fun h => ?_) rfl fun n hn => ?_
  · rintro x ⟨⟩
    exact hblank
  · rw [List.append_assoc, List.append_assoc]
    exact hcalm h
  · exact test_list (n := n + 4) hkey (hp.conjunction htight (n + 7) (by omega) .newline [] rfl)

/-- A default behind `else`. -/
theorem assigns_table (ht : p.wireType = some .table) :
    Assigns (Server.prologueLine [] p) p.name (fallbackTree p e.bare) := by
  have hagain := hp.outside hw
  obtain ⟨c, cs, rfl, -, hblank, -⟩ := hp.first_char
  have hkey := isHeld_of_whole hwhole
  have htext : Server.prologueLine [] p = p.name ++ (' ' :: '=' :: (tableOpens p.name).flatMap Lexeme.text ++
      (c :: cs ++ (([] : List Lexeme).flatMap Lexeme.text ++ ['\n']))) := by
    rw [Server.prologueLine, Server.decode, ht, hd, tableOpens_text]
    simp only [List.nil_append, List.append_assoc, List.cons_append]
    rfl
  rw [htext, fallbackTree, ht]
  refine assigns_pasted hp hwhole hfree (tableOpens_fit hkey ?_) rfl hagain (.cut rfl) trivial rfl
    (fun h => ?_) rfl fun n hn => ?_
  · rintro x ⟨⟩
    exact hblank
  · rw [List.append_assoc, List.append_assoc]
    exact hcalm h
  · exact test_table (n := n + 1) hkey (hp.test (n + 7) (by omega) .newline [] rfl)

end Outside

end Forms

end Pasted

/-- What a default needs to be one operand where the read of its parameter pastes it: it is no form
that needs brackets wherever it stands, none that `or` takes apart in a list, no line ends in it
outside of its own brackets where no brackets stand around it, and it has no colon that would make a
statement of its own of a line that starts with a soft word. -/
structure IsOperand (p : Param) (e : Expr) (w : Text) : Prop where
  bare : e.needsBrackets = false
  tight : p.wireType = some .list → e.isLoose = false
  oneLine : p.wireType = some .list ∨ p.wireType = some .table → OneLine w
  calm : p.wireType = some .list ∨ p.wireType = some .table →
    p.name = Keyword.matchWord.text ∨ p.name = Keyword.caseWord.text →
      headsBlock (Stream.ofText (w ++ ['\n']) 0 true).tokens false false 0 = false

/-- The line that sets a parameter of a parsed function assigns the read of the parameter, with the
tree of the default as its operand: the value of `default`, the right side of `or`, or what stands
behind `else`. -/
theorem prologue_default [CharacterNames] {path text : Text} {source : Source}
    (hsource : Source.ofText path text = .ok source) {d : Definition} (hd : d ∈ source.definitions)
    {q : Parameter Expr} (hq : q ∈ d.head.params.single) {e : Expr} (he : q.fallback = some e)
    (hoperand : IsOperand (Definition.param source q) e (source.slice e.span)) :
    Assigns (Server.prologueLine [] (Definition.param source q)) q.name
      (fallbackTree (Definition.param source q) e.bare) := by
  obtain ⟨hparse, rfl⟩ : parse text = .ok source.body ∧ source.text = text := by
    unfold Source.ofText at hsource
    split at hsource
    · obtain rfl := Except.ok.inj hsource
      exact ⟨‹_›, rfl⟩
    · cases hsource
  obtain ⟨s, hs, hfound⟩ := List.mem_filterMap.mp hd
  obtain ⟨span, rfl⟩ : ∃ span, s = .function span d.head d.body := by
    cases s <;> first | cases hfound; exact ⟨_, rfl⟩ | cases hfound
  have hnamed := parse_named hparse hs
  obtain ⟨hfree, hapart⟩ := parse_rereadable hparse hs q hq
  obtain ⟨ks, after, hpasted⟩ := (hapart e he).pasted hoperand.bare
  have hwhole : Identifier.IsWhole (Definition.param source q).name := hnamed.params q hq
  have hfallback : (Definition.param source q).fallback = some (source.slice e.span) := by
    simp [Definition.param, he]
  have hcalm (hform : (Definition.param source q).wireType = some .list ∨
      (Definition.param source q).wireType = some .table) (hname : (Definition.param source q).name =
        Keyword.matchWord.text ∨ (Definition.param source q).name = Keyword.caseWord.text) :
      heads (ks ++ [TokenKind.newline]) false false 0 = false := by
    rw [← hpasted.heads_alone (hoperand.oneLine hform)]
    exact hoperand.calm hform hname
  by_cases hl : (Definition.param source q).wireType = some .list
  · exact assigns_list hpasted hwhole hfree hfallback (hoperand.oneLine (.inl hl)) (hcalm (.inl hl)) hl
      (hoperand.tight hl)
  · by_cases ht : (Definition.param source q).wireType = some .table
    · exact assigns_table hpasted hwhole hfree hfallback (hoperand.oneLine (.inr ht)) (hcalm (.inr ht)) ht
    · exact assigns_cast hpasted hwhole hfree hfallback hl ht

def spread : Source where
  path := "src/App.py"
  text := "def f(tags: list = [\n    \"new\"]) -> list:\n    return tags\n"
  body := [.function ⟨0, 57⟩
    ⟨false, "f", ⟨[], [⟨⟨6, 16⟩, "tags", some (.name ⟨12, 16⟩ "list"),
      some (.list ⟨19, 31⟩ [.constant ⟨25, 30⟩ (.text "new")])⟩], none, [], none⟩, [],
      some (.name ⟨36, 40⟩ "list"), []⟩ [.return ⟨46, 57⟩ (some (.name ⟨53, 57⟩ "tags"))]]

set_option maxRecDepth 20000 in
/-- A default with a line end between its own brackets stays whole. -/
theorem prologue_default_spread : Source.ofText "src/App.py" spread.text = .ok spread ∧
    Assigns "tags = request.args.getlist('tags') or [\n    \"new\"]\n" "tags"
      (.boolean .nowhere .disjunction [methodTree queryTree "getlist" [textTree "tags"] [],
        .list .nowhere [textTree "new"]]) := by
  have hfile : Source.ofText "src/App.py" spread.text = .ok spread := by rfl
  refine ⟨hfile, ?_⟩
  have htokens : (Stream.ofText "[\n    \"new\"]\n" 0 true).tokens =
      [⟨.operator .leftBracket, 0, 1⟩, ⟨.literal ⟨.plain, false, false, "new"⟩, 6, 11⟩,
        ⟨.operator .rightBracket, 11, 12⟩, ⟨.newline, 12, 13⟩] := by rfl
  have hline : OneLine "[\n    \"new\"]" := by
    intro t ht hnewline
    have hmem : t ∈ [(⟨.operator .leftBracket, 0, 1⟩ : Token),
        ⟨.literal ⟨.plain, false, false, "new"⟩, 6, 11⟩, ⟨.operator .rightBracket, 11, 12⟩,
        ⟨.newline, 12, 13⟩] := htokens ▸ ht
    simp only [List.mem_cons, List.not_mem_nil, or_false] at hmem
    rcases hmem with rfl | rfl | rfl | rfl
    · cases hnewline
    · cases hnewline
    · cases hnewline
    · rfl
  exact prologue_default hfile (.head _) (.head _) rfl
    ⟨rfl, fun _ => rfl, fun _ => hline, fun _ h => absurd h (by decide)⟩

def newOrOld : Expr :=
  .conditional ⟨19, 48⟩ (.name ⟨30, 35⟩ "fresh") (.list ⟨19, 26⟩ [.constant ⟨20, 25⟩ (.text "new")])
    (.list ⟨41, 48⟩ [.constant ⟨42, 47⟩ (.text "old")])

def loose : Source where
  path := "src/App.py"
  text := "def f(tags: list = [\"new\"] if fresh else [\"old\"]) -> list:\n    return tags\n"
  body := [.function ⟨0, 74⟩
    ⟨false, "f", ⟨[], [⟨⟨6, 16⟩, "tags", some (.name ⟨12, 16⟩ "list"), some newOrOld⟩], none, [], none⟩,
      [], some (.name ⟨53, 57⟩ "list"), []⟩ [.return ⟨63, 74⟩ (some (.name ⟨70, 74⟩ "tags"))]]

set_option maxRecDepth 20000 in
/-- Behind `or` a conditional is no operand: it takes the read for its own first value. -/
theorem prologue_default_loose : Source.ofText "src/App.py" loose.text = .ok loose ∧
    ∃ d ∈ loose.definitions, ∃ q ∈ d.head.params.single, q.fallback = some newOrOld ∧
      (Definition.param loose q).wireType = some .list ∧
        ¬Assigns (Server.prologueLine [] (Definition.param loose q)) q.name
          (fallbackTree (Definition.param loose q) newOrOld.bare) := by
  refine ⟨by rfl, _, .head _, _, .head _, rfl, rfl, ?_⟩
  rintro ⟨span, target, e, hparse, -, htree⟩
  have htaken : ∃ span target test body orelse,
      parse "tags = request.args.getlist('tags') or [\"new\"] if fresh else [\"old\"]\n" =
        .ok [.assign span [target] (.conditional ⟨7, 68⟩ test body orelse)] := ⟨_, _, _, _, _, rfl⟩
  obtain ⟨span', target', test, body, orelse, htaken⟩ := htaken
  obtain ⟨hassign, -⟩ := List.cons.inj (Except.ok.inj (hparse.symm.trans htaken))
  obtain ⟨-, -, rfl⟩ := Stmt.assign.inj hassign
  cases htree

end Pagewright.Wire
