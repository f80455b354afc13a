import Pagewright.Proofs.Grammar.Bare
import Pagewright.Proofs.Grammar.Line
import Pagewright.Proofs.Lexing.Names
import Pagewright.Server

namespace Pagewright.Wire

open Syntax Syntax.Parser Syntax.Expression

def methodTree (object : Expr) (method : Text) (args : List Expr)
    (keywords : List (KeywordArg Expr)) : Expr :=
  .call .nowhere (.attribute .nowhere object method) args keywords

def nameTree (id : Text) : Expr :=
  .name .nowhere id

def textTree (t : Text) : Expr :=
  .constant .nowhere (.text t)

def queryTree : Expr :=
  .attribute .nowhere (nameTree "request") "args"

def frameTree (json : Expr) : Expr :=
  methodTree (nameTree "_pd") "DataFrame" [methodTree (nameTree "_json") "loads" [json] []] []

def castName (p : Param) : Text :=
  match p.wireType with
  | some .integer => "int"
  | some .boolean => "_as_bool"
  | _ => "str"

def readTree (p : Param) : Expr :=
  match p.wireType with
  | some .list => methodTree queryTree "getlist" [textTree p.name] []
  | some .table => frameTree (methodTree queryTree "get" [textTree p.name, textTree "[]"] [])
  | _ => methodTree queryTree "get" [textTree p.name] [⟨some "type", nameTree (castName p)⟩]

variable {n : Nat} {P : Expr → Prop} {ks rest : List TokenKind} {t u : TokenKind}

/-- What no operand, argument or literal goes on with. -/
def stops (k : TokenKind) : Bool :=
  ends k && !isComprehension k && !isLiteral k && !binds k

theorem operatesNext_of_ends (h : ends u = true) : operatesNext u = false := by
  simp only [ends, Bool.and_eq_true, Bool.not_eq_true'] at h
  exact h.1.1

theorem ends_of_stops (h : stops u = true) : ends u = true := by
  simp only [stops, Bool.and_eq_true] at h
  exact h.1.1.1

theorem test_name [CharacterNames] {id : Text} (hu : ends u = true) :
    Gives (test (Grammar.level n)) (.name id :: u :: rest) (fun e => e.bare = nameTree id)
      (u :: rest) := by
  have hname : Gives (atom (Grammar.level n)) (.name id :: u :: rest) (Expr.IsName id) (u :: rest) :=
    atom_name
  have h := test_of_primary (primary_of_atom hname (operatesNext_of_ends hu)) rfl hu
  refine h.mono fun e he => ?_
  obtain ⟨s, rfl⟩ := he
  rfl

theorem primary_text [CharacterNames] {content : Text} (hc : ∀ c ∈ content, c ≠ '\\' ∧ c ≠ '\r')
    (hl : isLiteral u = false) (hu : operatesNext u = false) :
    Gives (primary (Grammar.level n)) (.literal ⟨.plain, false, false, content⟩ :: u :: rest)
      (fun e => e.bare = textTree content) (u :: rest) := by
  have htext : Gives (atom (Grammar.level n)) (.literal ⟨.plain, false, false, content⟩ :: u :: rest)
      (Expr.IsText content) (u :: rest) := atom_text hc hl
  refine (primary_of_atom htext hu).mono fun e he => ?_
  obtain ⟨s, rfl⟩ := he
  rfl

theorem test_text [CharacterNames] {content : Text} (hc : ∀ c ∈ content, c ≠ '\\' ∧ c ≠ '\r')
    (hu : stops u = true) :
    Gives (test (Grammar.level n)) (.literal ⟨.plain, false, false, content⟩ :: u :: rest)
      (fun e => e.bare = textTree content) (u :: rest) := by
  have hl : isLiteral u = false := by
    simp only [stops, Bool.and_eq_true, Bool.not_eq_true'] at hu
    exact hu.1.2
  exact test_of_primary (primary_text hc hl (operatesNext_of_ends (ends_of_stops hu))) rfl
    (ends_of_stops hu)

def AreArguments (args : List Expr) (keywords : List (KeywordArg Expr))
    (r : List Expr × List (KeywordArg Expr)) : Prop :=
  bareAll r.1 = args ∧ bareKeywords r.2 = keywords

/-- A read through a method of a name. -/
theorem primary_method [CharacterNames] (object method : Text) {args : List Expr}
    {keywords : List (KeywordArg Expr)}
    (ha : Gives (arguments (Grammar.level (n + 3))) ks (AreArguments args keywords)
      (.operator .rightParen :: u :: rest)) (hu : operatesNext u = false) :
    Gives (primary (Grammar.level (n + 3)))
      (.name object :: .operator .dot :: .name method :: .operator .leftParen :: ks)
      (fun e => e.bare = methodTree (nameTree object) method args keywords) (u :: rest) := by
  refine primary_of_trailers atom_name fun start e he => ?_
  refine trailers_attribute he fun e he => trailers_call he ha fun e he => ?_
  refine (trailers_of_end hu).mono fun x hx => ?_
  obtain ⟨_, _, as, kws, rfl, ⟨_, _, rfl, _, rfl⟩, has, hkws⟩ := he
  rw [hx, ← has, ← hkws]
  rfl

theorem test_method [CharacterNames] (object method : Text) {args : List Expr}
    {keywords : List (KeywordArg Expr)}
    (ha : Gives (arguments (Grammar.level (n + 3))) ks (AreArguments args keywords)
      (.operator .rightParen :: u :: rest)) (hu : stops u = true) :
    Gives (test (Grammar.level (n + 3)))
      (.name object :: .operator .dot :: .name method :: .operator .leftParen :: ks)
      (fun e => e.bare = methodTree (nameTree object) method args keywords) (u :: rest) :=
  test_of_primary (primary_method object method ha (operatesNext_of_ends (ends_of_stops hu))) rfl
    (ends_of_stops hu)

/-- A read through a method of the query. -/
theorem primary_query [CharacterNames] (method : Text) {args : List Expr}
    {keywords : List (KeywordArg Expr)}
    (ha : Gives (arguments (Grammar.level (n + 3))) ks (AreArguments args keywords)
      (.operator .rightParen :: u :: rest)) (hu : operatesNext u = false) :
    Gives (primary (Grammar.level (n + 3)))
      (.name "request" :: .operator .dot :: .name "args" :: .operator .dot :: .name method
        :: .operator .leftParen :: ks)
      (fun e => e.bare = methodTree queryTree method args keywords) (u :: rest) := by
  refine primary_of_trailers atom_name fun start e he => ?_
  refine trailers_attribute he fun e he => trailers_attribute he fun e he => ?_
  refine trailers_call he ha fun e he => ?_
  refine (trailers_of_end hu).mono fun x hx => ?_
  obtain ⟨_, _, as, kws, rfl, ⟨_, _, rfl, _, _, rfl, _, rfl⟩, has, hkws⟩ := he
  rw [hx, ← has, ← hkws]
  rfl

theorem test_query [CharacterNames] (method : Text) {args : List Expr}
    {keywords : List (KeywordArg Expr)}
    (ha : Gives (arguments (Grammar.level (n + 3))) ks (AreArguments args keywords)
      (.operator .rightParen :: u :: rest)) (hu : stops u = true) :
    Gives (test (Grammar.level (n + 3)))
      (.name "request" :: .operator .dot :: .name "args" :: .operator .dot :: .name method
        :: .operator .leftParen :: ks)
      (fun e => e.bare = methodTree queryTree method args keywords) (u :: rest) :=
  test_of_primary (primary_query method ha (operatesNext_of_ends (ends_of_stops hu))) rfl
    (ends_of_stops hu)

def IsPositional (e : Expr) (a : Argument) : Prop :=
  ∃ e', a = .positional e' ∧ e'.bare = e

def IsKeyword (name : Text) (e : Expr) (a : Argument) : Prop :=
  ∃ s e', a = .keyword s (some name) e' ∧ e'.bare = e

variable {e e' : Expr} {name : Text}

theorem positional_of_test [CharacterNames]
    (h : Gives (test (Grammar.level n)) (t :: ks) (·.bare = e) (u :: rest))
    (ht : opensAtom t = true) (hs : ∀ k ∈ ks.head?, binds k = false)
    (hu : isComprehension u = false) :
    Gives (argument (Grammar.level (n + 1))) (t :: ks) (IsPositional e) (u :: rest) :=
  argument_positional h ht hs hu

theorem keyword_of_test [CharacterNames] (h : Gives (test (Grammar.level n)) ks (·.bare = e) rest) :
    Gives (argument (Grammar.level (n + 1))) (.name name :: .operator .equal :: ks)
      (IsKeyword name e) rest :=
  argument_keyword h

theorem startsArgument_of_opensAtom (h : opensAtom t = true) : startsArgument t = true := by
  cases t with
  | operator o => cases o <;> first | rfl | simp [opensAtom] at h
  | keyword w => cases w <;> first | rfl | simp [opensAtom] at h
  | name id => rfl
  | literal l => rfl
  | int v => rfl
  | float v => rfl
  | imaginary v => rfl
  | _ => simp [opensAtom] at h

/-- One argument by position. -/
theorem arguments_one [CharacterNames]
    (h : Gives (argument (Grammar.level (n + 1))) (t :: ks) (IsPositional e)
      (.operator .rightParen :: rest)) (ht : opensAtom t = true) :
    Gives (arguments (Grammar.level (n + 1))) (t :: ks) (AreArguments [e] [])
      (.operator .rightParen :: rest) := by
  refine (arguments_of_items (argumentItems_one h (startsArgument_of_opensAtom ht) (by simp))
    ?_).mono ?_
  · rintro as ⟨a, rfl, e', rfl, -⟩
    simp [argumentFault?]
  · rintro r ⟨as, ⟨a, rfl, e', rfl, he⟩, rfl⟩
    exact ⟨congrArg (fun e => [e]) he, rfl⟩

/-- Two arguments, of which the first has a place. -/
theorem arguments_two [CharacterNames] {A : Argument → Prop} {args : List Expr}
    {keywords : List (KeywordArg Expr)} {mid : List TokenKind} {t' : TokenKind}
    (h : Gives (argument (Grammar.level (n + 2))) (t :: ks) (IsPositional e)
      (.operator .comma :: t' :: mid)) (ht : opensAtom t = true)
    (h' : Gives (argument (Grammar.level (n + 2))) (t' :: mid) A (.operator .rightParen :: rest))
    (ht' : opensAtom t' = true)
    (hA : ∀ e' a, A a → argumentFault? [] false false [.positional e', a] = none ∧
      (e'.bare = e → AreArguments args keywords
        ([.positional e', a].filterMap positional?, [.positional e', a].filterMap keyword?))) :
    Gives (arguments (Grammar.level (n + 2))) (t :: ks) (AreArguments args keywords)
      (.operator .rightParen :: rest) := by
  refine (arguments_of_items (argumentItems_more h (startsArgument_of_opensAtom ht)
    (argumentItems_one h' (startsArgument_of_opensAtom ht') (by simp))) ?_).mono ?_
  · rintro as ⟨a, later, rfl, ⟨e', rfl, -⟩, b, rfl, hb⟩
    exact (hA e' b hb).1
  · rintro r ⟨as, ⟨a, later, rfl, ⟨e', rfl, he⟩, b, rfl, hb⟩, rfl⟩
    exact (hA e' b hb).2 he

theorem arguments_two_positional [CharacterNames]
    {mid : List TokenKind} {t' : TokenKind}
    (h : Gives (argument (Grammar.level (n + 2))) (t :: ks) (IsPositional e)
      (.operator .comma :: t' :: mid)) (ht : opensAtom t = true)
    (h' : Gives (argument (Grammar.level (n + 2))) (t' :: mid) (IsPositional e')
      (.operator .rightParen :: rest)) (ht' : opensAtom t' = true) :
    Gives (arguments (Grammar.level (n + 2))) (t :: ks) (AreArguments [e, e'] [])
      (.operator .rightParen :: rest) := by
  refine arguments_two h ht h' ht' fun x a ha => ?_
  obtain ⟨x', rfl, hx'⟩ := ha
  refine ⟨by simp [argumentFault?], fun hx => ⟨?_, rfl⟩⟩
  exact congrArg₂ (fun e e' => [e, e']) hx hx'

theorem arguments_two_keyword [CharacterNames]
    {mid : List TokenKind} {t' : TokenKind}
    (h : Gives (argument (Grammar.level (n + 2))) (t :: ks) (IsPositional e)
      (.operator .comma :: t' :: mid)) (ht : opensAtom t = true)
    (h' : Gives (argument (Grammar.level (n + 2))) (t' :: mid) (IsKeyword name e')
      (.operator .rightParen :: rest)) (ht' : opensAtom t' = true) :
    Gives (arguments (Grammar.level (n + 2))) (t :: ks) (AreArguments [e] [⟨some name, e'⟩])
      (.operator .rightParen :: rest) := by
  refine arguments_two h ht h' ht' fun x a ha => ?_
  obtain ⟨s, x', rfl, hx'⟩ := ha
  refine ⟨by simp [argumentFault?], fun hx => ⟨congrArg (fun e => [e]) hx, ?_⟩⟩
  exact congrArg (fun e => [KeywordArg.mk (some name) e]) hx'

def queryLexemes (method : Text) (args : List Lexeme) : List Lexeme :=
  [.word "request", .symbol .dot, .word "args", .symbol .dot, .word method, .symbol .leftParen]
    ++ args ++ [.symbol .rightParen]

def listLexemes (key : Text) : List Lexeme :=
  queryLexemes "getlist" [.quoted '\'' key]

def tableLexemes (key : Text) : List Lexeme :=
  [.word "_pd", .symbol .dot, .word "DataFrame", .symbol .leftParen, .word "_json", .symbol .dot,
    .word "loads", .symbol .leftParen]
    ++ queryLexemes "get" [.quoted '\'' key, .symbol .comma, .space, .quoted '\'' "[]"]
    ++ [.symbol .rightParen, .symbol .rightParen]

def castLexemes (key cast : Text) : List Lexeme :=
  queryLexemes "get"
    [.quoted '\'' key, .symbol .comma, .space, .word "type", .symbol .equal, .word cast]

section

variable (key cast : Text)

theorem listLexemes_text : (listLexemes key).flatMap Lexeme.text =
    "request.args.getlist('".toList ++ key ++ "')".toList := by
  simp only [listLexemes, queryLexemes, List.cons_append, List.nil_append, List.flatMap_cons,
    Lexeme.text, List.append_assoc]
  rfl

theorem tableLexemes_text : (tableLexemes key).flatMap Lexeme.text =
    "_pd.DataFrame(_json.loads(request.args.get('".toList ++ key ++ "', '[]')))".toList := by
  simp only [tableLexemes, queryLexemes, List.cons_append, List.nil_append, List.flatMap_cons,
    Lexeme.text, List.append_assoc]
  rfl

theorem castLexemes_text : (castLexemes key cast).flatMap Lexeme.text =
    "request.args.get('".toList ++ key ++ "', type=".toList ++ cast ++ ")".toList := by
  simp only [castLexemes, queryLexemes, List.cons_append, List.nil_append, List.flatMap_cons,
    Lexeme.text, List.append_assoc]
  rfl

end

def IsHeld (key : Text) : Prop :=
  ∀ c ∈ key, Lexeme.isHeld '\'' c = true

theorem isHeld_of_whole {key : Text} (h : Identifier.IsWhole key) : IsHeld key :=
  h.isHeld rfl

/-- A text in quotes fits between lexemes that fit around it. -/
theorem fit_quoted {quote : Char} (hq : isQuote quote = true) (before : List Lexeme)
    {after : List Lexeme} {key rest : Text} {depth : Nat}
    (h : ∀ c ∈ key, Lexeme.isHeld quote c = true)
    (hb : Lexeme.Fit depth before [quote])
    (hc : (after.flatMap Lexeme.text ++ rest).head?.all (· ≠ quote) = true)
    (ha : Lexeme.Fit (Reader.depthAfter depth before) after rest) :
    Lexeme.Fit depth (before ++ .quoted quote key :: after) rest := by
  induction before generalizing depth with
  | nil =>
    refine ⟨⟨hq, h⟩, fun c hmem => ?_, ha⟩
    exact (Option.all_eq_true _ _).mp hc c hmem
  | cons l ls ih =>
    obtain ⟨hs, hl, hf⟩ := hb
    refine ⟨hs, ?_, ih hf ha⟩
    have hhead : ∀ (s t : Text), (s ++ quote :: t).head? = (s ++ [quote]).head? := by
      intro s t
      cases s <;> rfl
    rw [List.append_eq, List.flatMap_append, List.flatMap_cons, Lexeme.text, List.append_assoc,
      List.cons_append, List.cons_append, List.cons_append, hhead]
    exact hl

theorem listLexemes_fit {key : Text} (h : IsHeld key) : Lexeme.Fit 0 (listLexemes key) [] :=
  fit_quoted rfl [.word "request", .symbol .dot, .word "args", .symbol .dot,
    .word "getlist", .symbol .leftParen] h (by decide) rfl (by decide)

theorem tableLexemes_fit {key : Text} (h : IsHeld key) : Lexeme.Fit 0 (tableLexemes key) [] :=
  fit_quoted rfl [.word "_pd", .symbol .dot, .word "DataFrame", .symbol .leftParen,
      .word "_json", .symbol .dot, .word "loads", .symbol .leftParen, .word "request",
      .symbol .dot, .word "args", .symbol .dot, .word "get", .symbol .leftParen]
    h (by decide) rfl (by decide)

def castNames : List Text :=
  ["str", "int", "_as_bool"]

theorem castName_mem (p : Param) : castName p ∈ castNames := by
  unfold castName
  split <;> decide

theorem castLexemes_fit {key cast : Text} (h : IsHeld key) (hcast : cast ∈ castNames) :
    Lexeme.Fit 0 (castLexemes key cast) [] := by
  have hafter : ∀ cast ∈ castNames, Lexeme.Fit 1 [.symbol .comma, .space, .word "type",
      .symbol .equal, .word cast, .symbol .rightParen] [] := by
    decide
  exact fit_quoted rfl [.word "request", .symbol .dot, .word "args", .symbol .dot,
    .word "get", .symbol .leftParen] h (by decide) rfl (hafter cast hcast)

theorem isHeld_plain {key : Text} {quote : Char} (h : ∀ c ∈ key, Lexeme.isHeld quote c = true) :
    ∀ c ∈ key, c ≠ '\\' ∧ c ≠ '\r' := by
  intro c hc
  have hheld := h c hc
  simp only [Lexeme.isHeld, Bool.and_eq_true, decide_eq_true_eq] at hheld
  exact ⟨hheld.1.1.2, hheld.2⟩

/-- The tree of a text that gives an expression of a known form. -/
def ReadsAs [CharacterNames] (t : Text) (e : Expr) : Prop :=
  ∃ span e', parse t = .ok [.expr span e'] ∧ e'.bare = e

/-- The read of a list asks the query for all texts of the parameter. -/
theorem readsAs_list [CharacterNames] {key : Text} (h : IsHeld key) :
    ReadsAs ("request.args.getlist('".toList ++ key ++ "')".toList)
      (methodTree queryTree "getlist" [textTree key] []) := by
  have hparse := Statement.parse_lexemes (P := fun e => e.bare =
    methodTree queryTree "getlist" [textTree key] []) (listLexemes_fit h) rfl (by decide) rfl rfl
    fun n => ?_
  · rwa [← listLexemes_text]
  · have hkey : Gives (test (Grammar.level (n + 6)))
        [.literal ⟨.plain, false, false, key⟩, .operator .rightParen, .newline]
        (fun e => e.bare = textTree key) [.operator .rightParen, .newline] :=
      test_text (isHeld_plain h) rfl
    refine test_query (n := n + 4) _ (arguments_one (positional_of_test hkey rfl ?_ rfl) rfl) rfl
    rintro k ⟨⟩
    rfl

/-- The read of a table loads the JSON text of the parameter, an empty list if it is missing. -/
theorem readsAs_table [CharacterNames] {key : Text} (h : IsHeld key) :
    ReadsAs ("_pd.DataFrame(_json.loads(request.args.get('".toList ++ key ++ "', '[]')))".toList)
      (frameTree (methodTree queryTree "get" [textTree key, textTree "[]"] [])) := by
  have hparse := Statement.parse_lexemes (P := fun e => e.bare =
    frameTree (methodTree queryTree "get" [textTree key, textTree "[]"] []))
    (tableLexemes_fit h) rfl (by decide) rfl rfl fun n => ?_
  · rwa [← tableLexemes_text]
  · have hkey : Gives (argument (Grammar.level (n + 5)))
        [.literal ⟨.plain, false, false, key⟩, .operator .comma,
          .literal ⟨.plain, false, false, "[]"⟩, .operator .rightParen, .operator .rightParen, 
          .operator .rightParen, .newline] (IsPositional (textTree key)) _ :=
      positional_of_test (test_text (isHeld_plain h) rfl) rfl (by rintro k ⟨⟩; rfl) rfl
    have hempty : Gives (argument (Grammar.level (n + 5)))
        [.literal ⟨.plain, false, false, "[]"⟩, .operator .rightParen, .operator .rightParen, 
          .operator .rightParen, .newline] (IsPositional (textTree "[]")) _ :=
      have hempty : IsHeld "[]" := List.all_eq_true.mp (by decide)
      positional_of_test (test_text (isHeld_plain hempty) rfl) rfl (by rintro k ⟨⟩; rfl) rfl
    have hquery := test_query (n := n + 2) "get" (arguments_two_positional hkey rfl hempty rfl) rfl
    have hloads := test_method (n := n + 3) "_json" "loads"
      (arguments_one (positional_of_test hquery rfl (by rintro k ⟨⟩; rfl) rfl) rfl) rfl
    exact test_method (n := n + 4) "_pd" "DataFrame"
      (arguments_one (positional_of_test hloads rfl (by rintro k ⟨⟩; rfl) rfl) rfl) rfl

/-- The read of a scalar asks the query for the parameter with its cast. -/
theorem readsAs_cast [CharacterNames] {key cast : Text} (h : IsHeld key)
    (hcast : cast ∈ castNames) :
    ReadsAs ("request.args.get('".toList ++ key ++ "', type=".toList ++ cast ++ ")".toList)
      (methodTree queryTree "get" [textTree key] [⟨some "type", nameTree cast⟩]) := by
  have hkinds : softened true ((castLexemes key cast).flatMap Lexeme.kinds ++ [.newline]) =
      [.name "request", .operator .dot, .name "args", .operator .dot, .name "get",
        .operator .leftParen, .literal ⟨.plain, false, false, key⟩, .operator .comma, .name "type",
        .operator .equal, .name cast, .operator .rightParen, .newline] := by
    simp only [castNames, List.mem_cons, List.not_mem_nil, or_false] at hcast
    rcases hcast with rfl | rfl | rfl <;> rfl
  have hparse := Statement.parse_lexemes (P := fun e => e.bare =
    methodTree queryTree "get" [textTree key] [⟨some "type", nameTree cast⟩])
    (castLexemes_fit h hcast) rfl (by decide) hkinds rfl fun n => ?_
  · rwa [← castLexemes_text]
  · have hkey : Gives (argument (Grammar.level (n + 7)))
        [.literal ⟨.plain, false, false, key⟩, .operator .comma, .name "type", .operator .equal,
          .name cast, .operator .rightParen, .newline] (IsPositional (textTree key)) _ :=
      positional_of_test (test_text (isHeld_plain h) rfl) rfl (by rintro k ⟨⟩; rfl) rfl
    have htype : Gives (argument (Grammar.level (n + 7)))
        [.name "type", .operator .equal, .name cast, .operator .rightParen, .newline]
        (IsKeyword "type" (nameTree cast)) _ :=
      keyword_of_test (test_name rfl)
    exact test_query (n := n + 4) _ (arguments_two_keyword hkey rfl htype rfl) rfl

/-- Without a default, the text that reads a parameter has the tree of its read. -/
theorem readsAs_decode [CharacterNames] {p : Param} (hheld : IsHeld p.name)
    (h : p.fallback = none) :
    ReadsAs (Server.decode p) (readTree p) := by
  have hcast := readsAs_cast hheld (castName_mem p)
  unfold Server.decode readTree castName at *
  rw [h]
  cases hty : p.wireType with
  | none => rwa [hty] at hcast
  | some ty =>
    rw [hty] at hcast
    cases ty with
    | list => exact readsAs_list hheld
    | table => exact readsAs_table hheld
    | string => exact hcast
    | integer => exact hcast
    | boolean => exact hcast

end Pagewright.Wire
