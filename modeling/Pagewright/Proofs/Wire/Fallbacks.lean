import Pagewright.Proofs.Reread.Lines
import Pagewright.Proofs.Wire.Reading

namespace Pagewright.Wire

open Syntax Syntax.Parser Syntax.Expression

def fallbackTree (p : Param) (fallback : Expr) : Expr :=
  match p.wireType with
  | some .list => .boolean .nowhere .disjunction
    [methodTree queryTree "getlist" [textTree p.name] [], fallback]
  | some .table => .conditional .nowhere
    (.compare .nowhere (textTree p.name) [(.member, queryTree)])
    (frameTree (.subscript .nowhere queryTree (textTree p.name))) fallback
  | _ => methodTree queryTree "get" [textTree p.name]
    [⟨some "default", fallback⟩, ⟨some "type", nameTree (castName p)⟩]

section Gives

variable {n : Nat} {ks mid later rest ds : List TokenKind} {t u : TokenKind} {key cast : Text}
  {fallback : Expr}

/-- An argument by position and two by name. -/
theorem arguments_three [CharacterNames] {e e' e'' : Expr} {name name' : Text} (hne : name ≠ name')
    (h : Gives (argument (Grammar.level (n + 3))) (t :: ks) (IsPositional e)
      (.operator .comma :: .name name :: .operator .equal :: mid)) (ht : opensAtom t = true)
    (h' : Gives (argument (Grammar.level (n + 3))) (.name name :: .operator .equal :: mid)
      (IsKeyword name e') (.operator .comma :: .name name' :: .operator .equal :: later))
    (h'' : Gives (argument (Grammar.level (n + 3))) (.name name' :: .operator .equal :: later)
      (IsKeyword name' e'') (.operator .rightParen :: rest)) :
    Gives (arguments (Grammar.level (n + 3))) (t :: ks)
      (AreArguments [e] [⟨some name, e'⟩, ⟨some name', e''⟩]) (.operator .rightParen :: rest) := by
  refine (arguments_of_items (argumentItems_more h (startsArgument_of_opensAtom ht)
    (argumentItems_more h' rfl (argumentItems_one h'' rfl (by simp)))) ?_).mono ?_
  · rintro as ⟨a, _, rfl, ⟨x, rfl, -⟩, b, _, rfl, ⟨s, y, rfl, -⟩, c, rfl, s', z, rfl, -⟩
    simp [argumentFault?, hne.symm]
  · rintro r ⟨as, ⟨a, _, rfl, ⟨x, rfl, rfl⟩, b, _, rfl, ⟨s, y, rfl, rfl⟩, c, rfl, s', z, rfl, rfl⟩, rfl⟩
    exact ⟨rfl, rfl⟩

theorem argument_key [CharacterNames] (hkey : IsHeld key) (hu : stops u = true)
    (hs : isComprehension u = false) (hb : binds u = false) :
    Gives (argument (Grammar.level (n + 1))) (.literal ⟨.plain, false, false, key⟩ :: u :: rest)
      (IsPositional (textTree key)) (u :: rest) := by
  refine positional_of_test (test_text (isHeld_plain hkey) hu) rfl ?_ hs
  rintro k ⟨⟩
  exact hb

def castBefore (key : Text) : List TokenKind :=
  [.name "request", .operator .dot, .name "args", .operator .dot, .name "get", .operator .leftParen,
    .literal ⟨.plain, false, false, key⟩, .operator .comma, .name "default", .operator .equal]

def castBehind (cast : Text) : List TokenKind :=
  [.name "type", .operator .equal, .name cast, .operator .rightParen, .newline]

/-- A default for a scalar is the argument between the key and the cast. -/
theorem test_cast [CharacterNames] (hkey : IsHeld key)
    (hd : Gives (Grammar.level (n + 3)).test (ds ++ .operator .comma :: castBehind cast)
      (·.bare = fallback) (.operator .comma :: castBehind cast)) :
    Gives (test (Grammar.level (n + 3))) (castBefore key ++ (ds ++ .operator .comma :: castBehind cast))
      (·.bare = methodTree queryTree "get" [textTree key]
        [⟨some "default", fallback⟩, ⟨some "type", nameTree cast⟩]) [.newline] := by
  have hdefault : Gives (argument (Grammar.level (n + 3))) (.name "default" :: .operator .equal ::
      (ds ++ .operator .comma :: castBehind cast)) (IsKeyword "default" fallback)
      (.operator .comma :: castBehind cast) := keyword_of_test hd
  have htype : Gives (argument (Grammar.level (n + 3))) (castBehind cast)
      (IsKeyword "type" (nameTree cast)) [.operator .rightParen, .newline] :=
    keyword_of_test (test_name rfl)
  exact test_query (n := n) "get" (arguments_three (by decide) (argument_key hkey rfl rfl rfl) rfl
    hdefault htype) rfl

def listBefore (key : Text) : List TokenKind :=
  [.name "request", .operator .dot, .name "args", .operator .dot, .name "getlist",
    .operator .leftParen, .literal ⟨.plain, false, false, key⟩, .operator .rightParen,
    .keyword .orWord]

/-- A default for a list is the second operand of the `or` behind the read. -/
theorem test_list [CharacterNames] (hkey : IsHeld key)
    (hd : Gives (conjunction (Grammar.level (n + 3))) (ds ++ [TokenKind.newline]) (·.bare = fallback)
      [.newline]) :
    Gives (test (Grammar.level (n + 3))) (listBefore key ++ (ds ++ [TokenKind.newline]))
      (·.bare = .boolean .nowhere .disjunction
        [methodTree queryTree "getlist" [textTree key] [], fallback]) [.newline] := by
  have hlist : Gives (primary (Grammar.level (n + 3))) (listBefore key ++ (ds ++ [TokenKind.newline])) _
      (.keyword .orWord :: (ds ++ [TokenKind.newline])) :=
    primary_query "getlist" (arguments_one (argument_key hkey rfl rfl rfl) rfl) rfl
  have hboth : Gives (disjunction (Grammar.level (n + 3))) (listBefore key ++ (ds ++ [TokenKind.newline]))
      _ [.newline] :=
    joinedBy_two (conjunction_of_primary hlist rfl rfl rfl (by decide)) hd (by decide)
  refine test_of_disjunction (hboth.mono ?_) rfl (by decide)
  rintro e ⟨span, x, y, rfl, hx, hy⟩
  rw [← hx, ← hy]
  rfl

def tableBefore (key : Text) : List TokenKind :=
  [.name "_pd", .operator .dot, .name "DataFrame", .operator .leftParen, .name "_json", .operator .dot,
    .name "loads", .operator .leftParen, .name "request", .operator .dot, .name "args",
    .operator .leftBracket, .literal ⟨.plain, false, false, key⟩, .operator .rightBracket,
    .operator .rightParen, .operator .rightParen, .keyword .ifWord,
    .literal ⟨.plain, false, false, key⟩, .keyword .inWord, .name "request", .operator .dot,
    .name "args", .keyword .elseWord]

/-- The text of a key in the query. -/
theorem test_subscript [CharacterNames] (hkey : IsHeld key) (hu : stops u = true) :
    Gives (test (Grammar.level (n + 3))) (.name "request" :: .operator .dot :: .name "args" ::
        .operator .leftBracket :: .literal ⟨.plain, false, false, key⟩ :: .operator .rightBracket ::
          u :: rest) (·.bare = .subscript .nowhere queryTree (textTree key)) (u :: rest) := by
  have hindex : Gives (subscripts (Grammar.level (n + 3)))
      (.literal ⟨.plain, false, false, key⟩ :: .operator .rightBracket :: u :: rest)
      (·.bare = textTree key) (.operator .rightBracket :: u :: rest) := by
    refine subscripts_one (test_text (isHeld_plain hkey) rfl) rfl ?_
    rintro k ⟨⟩
    rfl
  refine test_of_primary ?_ rfl (ends_of_stops hu)
  refine primary_of_trailers atom_name fun start e he => ?_
  refine trailers_attribute he fun e he => trailers_subscript he hindex fun e he => ?_
  refine (trailers_of_end (operatesNext_of_ends (ends_of_stops hu))).mono fun x hx => ?_
  obtain ⟨_, _, i, rfl, ⟨_, _, rfl, _, rfl⟩, hi⟩ := he
  rw [hx]
  exact congrArg (Expr.subscript .nowhere queryTree) hi

/-- Whether a key is in the query. -/
theorem disjunction_member [CharacterNames] (hkey : IsHeld key) :
    Gives (disjunction (Grammar.level (n + 3))) (.literal ⟨.plain, false, false, key⟩ ::
        .keyword .inWord :: .name "request" :: .operator .dot :: .name "args" :: .keyword .elseWord ::
          rest)
      (·.bare = .compare .nowhere (textTree key) [(.member, queryTree)]) (.keyword .elseWord :: rest) := by
  have hleft : Gives (operand (Grammar.level (n + 3))) (.literal ⟨.plain, false, false, key⟩ ::
        .keyword .inWord :: .name "request" :: .operator .dot :: .name "args" :: .keyword .elseWord ::
          rest) (·.bare = textTree key) (.keyword .inWord :: .name "request" :: .operator .dot ::
            .name "args" :: .keyword .elseWord :: rest) :=
    operand_of_primary (primary_text (isHeld_plain hkey) rfl rfl) rfl rfl
  have hquery : Gives (primary (Grammar.level (n + 3))) (.name "request" :: .operator .dot ::
      .name "args" :: .keyword .elseWord :: rest) (·.bare = queryTree) (.keyword .elseWord :: rest) := by
    refine primary_of_trailers atom_name fun start e he => trailers_attribute he fun e he => ?_
    refine (trailers_of_end rfl).mono fun x hx => ?_
    obtain ⟨_, _, rfl, _, rfl⟩ := he
    rw [hx]
    rfl
  have hop : Gives compareOp (.keyword .inWord :: .name "request" :: .operator .dot :: .name "args" ::
      .keyword .elseWord :: rest) (· = some .member) (.name "request" :: .operator .dot ::
        .name "args" :: .keyword .elseWord :: rest) := by
    refine gives_kind.bind fun k hk => ?_
    rw [hk]
    exact gives_take.bind fun _ _ => gives_pure rfl
  have hboth := comparison_two (n := n + 2) rfl hleft hop (operand_of_primary hquery rfl rfl) rfl
  refine joinedBy_of_end (conjunction_of_comparison (hboth.mono ?_) rfl (by decide)) (by decide)
  rintro e ⟨span, x, y, rfl, hx, hy⟩
  rw [← hx, ← hy]
  rfl

/-- A default for a table is the last branch of the conditional that looks for the parameter. -/
theorem test_table [CharacterNames] (hkey : IsHeld key)
    (hd : Gives (Grammar.level (n + 6)).test (ds ++ [TokenKind.newline]) (·.bare = fallback)
      [.newline]) :
    Gives (test (Grammar.level (n + 6))) (tableBefore key ++ (ds ++ [TokenKind.newline]))
      (·.bare = .conditional .nowhere (.compare .nowhere (textTree key) [(.member, queryTree)])
        (frameTree (.subscript .nowhere queryTree (textTree key))) fallback) [.newline] := by
  have harg {e : Expr} {m : Nat} {t k u : TokenKind} {ks rest : List TokenKind}
      (h : Gives (test (Grammar.level m)) (t :: k :: ks) (·.bare = e) (u :: rest))
      (ht : opensAtom t = true) (hk : binds k = false) (hu : isComprehension u = false) :
      Gives (argument (Grammar.level (m + 1))) (t :: k :: ks) (IsPositional e) (u :: rest) := by
    refine positional_of_test h ht ?_ hu
    rintro k ⟨⟩
    exact hk
  have hloads : Gives (test (Grammar.level (n + 5))) ((tableBefore key).drop 4 ++ (ds ++ [.newline])) _
      ((tableBefore key).drop 15 ++ (ds ++ [.newline])) :=
    test_method "_json" "loads" (arguments_one
      (harg (test_subscript (u := .operator .rightParen) hkey rfl) rfl rfl rfl) rfl) rfl
  have hframe : Gives (primary (Grammar.level (n + 6))) (tableBefore key ++ (ds ++ [.newline])) _
      ((tableBefore key).drop 16 ++ (ds ++ [.newline])) :=
    primary_method "_pd" "DataFrame" (arguments_one (harg hloads rfl rfl rfl) rfl) rfl
  have hdisjunction : Gives (disjunction (Grammar.level (n + 6))) (tableBefore key ++ (ds ++ [.newline])) _
      ((tableBefore key).drop 16 ++ (ds ++ [.newline])) :=
    joinedBy_of_end (conjunction_of_primary hframe rfl rfl rfl (by decide)) (by decide)
  refine (test_conditional hdisjunction rfl (disjunction_member (n := n + 3) hkey) hd).mono ?_
  rintro e ⟨span, x, y, z, rfl, hx, hy, hz⟩
  rw [← hz]
  change Expr.conditional _ x.bare y.bare _ = _
  rw [hx, hy]
  rfl

end Gives

section Lexemes

variable {key cast rest : Text}

theorem equal_goesOn {c : Char} (h : Operator.equal.goesOn c = true) : c = '=' := by
  obtain ⟨o, -, ho⟩ := List.any_eq_true.mp h
  cases o <;> simp_all [Operator.text]

def castOpens (key : Text) : List Lexeme :=
  [.space, .word "request", .symbol .dot, .word "args", .symbol .dot, .word "get", .symbol .leftParen,
    .quoted '\'' key, .symbol .comma, .space, .word "default", .symbol .equal]

def castCloses (cast : Text) : List Lexeme :=
  [.symbol .comma, .space, .word "type", .symbol .equal, .word cast, .symbol .rightParen]

def listOpens (key : Text) : List Lexeme :=
  [.space, .word "request", .symbol .dot, .word "args", .symbol .dot, .word "getlist",
    .symbol .leftParen, .quoted '\'' key, .symbol .rightParen, .space, .word "or", .space]

def tableOpens (key : Text) : List Lexeme :=
  [.space, .word "_pd", .symbol .dot, .word "DataFrame", .symbol .leftParen, .word "_json",
    .symbol .dot, .word "loads", .symbol .leftParen, .word "request", .symbol .dot, .word "args",
    .symbol .leftBracket, .quoted '\'' key, .symbol .rightBracket, .symbol .rightParen,
    .symbol .rightParen, .space, .word "if", .space, .quoted '\'' key, .space, .word "in", .space,
    .word "request", .symbol .dot, .word "args", .space, .word "else", .space]

/-- What is written in front of a default for a scalar is read word by word. -/
theorem castOpens_fit (hkey : IsHeld key) (hrest : ∀ c ∈ rest.head?, c ≠ '=') :
    Lexeme.Fit 0 (.space :: .symbol .equal :: castOpens key) rest := by
  have halone : Lexeme.Fit 0 (.space :: .symbol .equal :: castOpens key) [] :=
    fit_quoted rfl [.space, .symbol .equal, .space, .word "request", .symbol .dot, .word "args",
      .symbol .dot, .word "get", .symbol .leftParen] hkey (by decide) rfl (by decide)
  refine Lexeme.fit_before halone fun l hl c hc => ?_
  obtain rfl : Lexeme.symbol .equal = l := Option.some.inj hl
  have hgoes : Operator.equal.goesOn c = false := by
    by_contra hgoes
    exact hrest c hc (equal_goesOn (by simpa using hgoes))
  simp [Lexeme.isApart, hgoes]

theorem castCloses_fit (hcast : cast ∈ castNames) : Lexeme.Fit 1 (castCloses cast) ['\n'] := by
  have hall : ∀ cast ∈ castNames, Lexeme.Fit 1 (castCloses cast) ['\n'] := by decide
  exact hall cast hcast

theorem fit_blank {ls : List Lexeme} (h : Lexeme.Fit 0 ls []) (hls : ls.getLast? = some .space)
    (hrest : ∀ c ∈ rest.head?, Reader.isInnerBlank c = false) : Lexeme.Fit 0 ls rest := by
  refine Lexeme.fit_before h fun l hl c hc => ?_
  obtain rfl : Lexeme.space = l := Option.some.inj (hls.symm.trans hl)
  simp [Lexeme.isApart, hrest c hc]

theorem listOpens_fit (hkey : IsHeld key) (hrest : ∀ c ∈ rest.head?, Reader.isInnerBlank c = false) :
    Lexeme.Fit 0 (.space :: .symbol .equal :: listOpens key) rest :=
  fit_blank (fit_quoted rfl [.space, .symbol .equal, .space, .word "request", .symbol .dot,
    .word "args", .symbol .dot, .word "getlist", .symbol .leftParen] hkey (by decide) rfl (by decide))
    rfl hrest

/-- What is written in front of a default for a table is read word by word. -/
theorem tableOpens_fit (hkey : IsHeld key) (hrest : ∀ c ∈ rest.head?, Reader.isInnerBlank c = false) :
    Lexeme.Fit 0 (.space :: .symbol .equal :: tableOpens key) rest := by
  have hlater : Lexeme.Fit 3 ([.symbol .rightBracket, .symbol .rightParen, .symbol .rightParen, .space,
      .word "if", .space] ++ .quoted '\'' key :: [.space, .word "in", .space, .word "request",
        .symbol .dot, .word "args", .space, .word "else", .space]) [] :=
    fit_quoted rfl _ hkey (by decide) rfl (by decide)
  have halone : Lexeme.Fit 0 (.space :: .symbol .equal :: tableOpens key) [] :=
    fit_quoted rfl [.space, .symbol .equal, .space, .word "_pd", .symbol .dot, .word "DataFrame",
      .symbol .leftParen, .word "_json", .symbol .dot, .word "loads", .symbol .leftParen,
      .word "request", .symbol .dot, .word "args", .symbol .leftBracket] hkey (by decide) rfl hlater
  exact fit_blank halone rfl hrest

theorem castOpens_text : (castOpens key).flatMap Lexeme.text =
    " request.args.get('".toList ++ key ++ "', default=".toList := by
  simp only [castOpens, List.flatMap_cons, Lexeme.text, List.append_assoc]
  rfl

theorem listOpens_text : (listOpens key).flatMap Lexeme.text =
    " request.args.getlist('".toList ++ key ++ "') or ".toList := by
  simp only [listOpens, List.flatMap_cons, Lexeme.text, List.append_assoc]
  rfl

theorem tableOpens_text : (tableOpens key).flatMap Lexeme.text =
    " _pd.DataFrame(_json.loads(request.args['".toList ++ key ++ "'])) if '".toList ++ key ++
      "' in request.args else ".toList := by
  simp only [tableOpens, List.flatMap_cons, Lexeme.text, List.append_assoc]
  rfl

end Lexemes

end Pagewright.Wire
