import Pagewright.Proofs.Extraction
import Pagewright.Proofs.Grammar.Hints
import Pagewright.Proofs.Source

namespace Pagewright

open Syntax Text

namespace WireType

/-- Where a name in a hint ends: before quotes alone, or before a bracket. -/
inductive IsEnd : Text → Prop where
  | quotes {t : Text} (all : ∀ c ∈ t, isQuote c = true) : IsEnd t
  | bracket (rest : Text) : IsEnd ('[' :: rest)

/-- A text has quotes at its start and behind them, between blanks, a name up to its end. -/
structure Shows (opening name t : Text) : Prop where
  quotes : ∀ c ∈ opening, isQuote c = true
  cut : ∃ blanks blanks' rest, t = opening ++ (blanks ++ name ++ blanks' ++ rest) ∧
    IsSpace blanks ∧ IsSpace blanks' ∧ IsEnd rest

/-- An expression whose text is a listed name, or a subscript of one that is listed for lists. -/
inductive Denotes (t : Text) (e : Expr) : WireType → Prop where
  | name {ty : WireType} (isListed : (t, ty) ∈ listed) : Denotes t e ty
  | subscript {name blanks rest : Text} (isListed : (name, .list) ∈ listed)
    (value : e.subscripted? = some name) (text : t = name ++ blanks ++ '[' :: rest)
    (isSpace : IsSpace blanks) : Denotes t e .list

/-- A text is a string that holds another text as it is, between single or triple quotes. -/
def IsQuoted (inner t : Text) : Prop :=
  ∃ n quote, (n = 1 ∨ n = 3) ∧ isQuote quote = true ∧ (∀ c ∈ inner, c ≠ quote ∧ c ≠ '\\') ∧
    t = List.replicate n quote ++ inner ++ List.replicate n quote

/-- A text between quotes shows a listed name without being it or a subscript of it for lists:
quotes of its own stand before the name or alone behind it, or a bracket stands behind it and the
text is not read as one expression, or as another one. -/
inductive Strays [CharacterNames] (inner name : Text) (ty : WireType) : Prop where
  | behind {opening : Text} (nonempty : opening ≠ []) (shows : Shows opening name inner)
  | before {blanks blanks' closing : Text} (text : inner = blanks ++ name ++ blanks' ++ closing)
    (nonempty : closing ≠ []) (quotes : ∀ c ∈ closing, isQuote c = true)
  | unread {blanks blanks' rest : Text} (text : inner = blanks ++ name ++ blanks' ++ '[' :: rest)
    (isSpace : IsSpace blanks) (isSpace' : IsSpace blanks')
    (unread : ∀ span e, parse (trim inner) ≠ .ok [.expr span e])
  | read {blanks blanks' rest : Text} {span : Span} {e : Expr}
    (text : inner = blanks ++ name ++ blanks' ++ '[' :: rest)
    (isSpace : IsSpace blanks) (isSpace' : IsSpace blanks')
    (parsed : parse (trim inner) = .ok [.expr span e])
    (other : e.subscripted? ≠ some name ∨ ty ≠ .list)

def isOneExpression : Except Fault (List Stmt) → Bool
  | .ok [.expr _ _] => true
  | _ => false

section Names

variable {name : Text} {ty : WireType} {c : Char}

theorem isQuote_cases (h : isQuote c = true) : c = '"' ∨ c = '\'' := by
  simpa [isQuote] using h

theorem isBlank_apart (h : isBlank c = true) : isQuote c = false ∧ c ≠ '[' := by
  refine ⟨?_, ?_⟩
  · by_contra hquote
    rcases isQuote_cases (by simpa using hquote) with rfl | rfl <;> exact absurd h (by decide)
  · rintro rfl
    exact absurd h (by decide)

/-- No blank, quote or bracket is part of a listed name. -/
theorem listed_bare (h : (name, ty) ∈ listed) :
    name ≠ [] ∧ ∀ c ∈ name, isBlank c = false ∧ isQuote c = false ∧ c ≠ '[' := by
  have hall : (listed.all fun entry => !entry.1.isEmpty &&
      entry.1.all fun c => !isBlank c && !isQuote c && c != '[') = true := by decide
  have hname := List.all_eq_true.mp hall _ h
  simpa [and_assoc] using hname

theorem lookup_listed : listed.lookup name = some ty ↔ (name, ty) ∈ listed := by
  constructor
  · intro h
    obtain ⟨before, after, heq, -⟩ := List.lookup_eq_some_iff.mp h
    rw [heq]
    simp
  · intro h
    have hall : (listed.all fun entry => listed.lookup entry.1 == some entry.2) = true := by decide
    simpa using List.all_eq_true.mp hall _ h

/-- A listed name is a name, or two with a dot between them. -/
theorem isPath_listed (h : (name, ty) ∈ listed) : IsPath name := by
  have hplain : ∀ id ∈ ["str".toList, "int".toList, "bool".toList, "list".toList, "List".toList,
      "DataFrame".toList, "typing".toList, "pd".toList, "pandas".toList],
      Identifier.IsPlain id := by
    simp only [List.forall_mem_cons]
    refine ⟨?_, ?_, ?_, ?_, ?_, ?_, ?_, ?_, ?_, by simp⟩
    all_goals exact .of_letters (by decide) (by decide) rfl
  have hlist : Identifier.IsPlain "List" := hplain _ (by simp)
  have hframe : Identifier.IsPlain "DataFrame" := hplain _ (by simp)
  have hall : ∀ entry ∈ listed, IsPath entry.1 := by
    simp only [listed, List.forall_mem_cons]
    refine ⟨.one (hplain _ (by simp)), .one (hplain _ (by simp)), .one (hplain _ (by simp)),
      .one (hplain _ (by simp)), .one hlist, ?_, .one hframe, ?_, ?_, by simp⟩
    · exact .more (hplain "typing" (by simp)) (.one hlist)
    · exact .more (hplain "pd" (by simp)) (.one hframe)
    · exact .more (hplain "pandas" (by simp)) (.one hframe)
  exact hall _ h

/-- A listed name is read as an expression. -/
theorem parse_listed [CharacterNames] (h : (name, ty) ∈ listed) :
    ∃ span e, parse name = .ok [.expr span e] := by
  have hall : (listed.all fun entry => isOneExpression (parse entry.1)) = true := rfl
  have hread := List.all_eq_true.mp hall _ h
  simp only [isOneExpression] at hread
  split at hread
  · rename_i span e hparse
    exact ⟨span, e, hparse⟩
  · cases hread

end Names

section Texts

variable {t u name opening closing inner : Text} {e : Expr} {ty : WireType}

/-- What a hint is looked up by stands in it, between quotes and blanks. -/
theorem shows_hintBase (u : Text) : ∃ opening, Shows opening (hintBase u) (trim u) := by
  have hopening := isRun_takeWhile isQuote (trim u)
  have hsplit : (trim u).takeWhile isQuote ++ (trim u).dropWhile isQuote = trim u :=
    List.takeWhile_append_dropWhile
  obtain ⟨closing, hclosing, hquotes⟩ := exists_dropEndWhile isQuote ((trim u).dropWhile isQuote)
  generalize hbare : dropEndWhile isQuote ((trim u).dropWhile isQuote) = bare at hclosing
  have hbase : hintBase u = trim (bare.takeWhile (· ≠ '[')) := by rw [hintBase, hbare]
  obtain ⟨b, b', hname, hb, hb'⟩ := exists_trim (bare.takeWhile (· ≠ '['))
  rw [← hbase] at hname
  have hcut : b ++ hintBase u ++ b' ++ (bare.dropWhile (· ≠ '[') ++ closing) = bare ++ closing := by
    rw [← hname, ← List.append_assoc, List.takeWhile_append_dropWhile]
  have hend : IsEnd (bare.dropWhile (· ≠ '[') ++ closing) := by
    have hends := (isRun_takeWhile (fun c : Char => decide (c ≠ '[')) bare).ends
    cases hrest : bare.dropWhile (· ≠ '[') with
    | nil => exact .quotes hquotes
    | cons c rest =>
      have hc := hends c (by rw [hrest]; rfl)
      obtain rfl : c = '[' := by simpa using hc
      exact .bracket _
  refine ⟨_, hopening.all, b, b', _, ?_, hb, hb', hend⟩
  rw [hcut, ← hclosing, hsplit]

/-- A trimmed text that has no quotes before a name starts with the name. -/
theorem Shows.unquoted (h : Shows [] name (trim u)) :
    ∃ blanks rest, trim u = name ++ blanks ++ rest ∧ IsSpace blanks ∧ IsEnd rest := by
  obtain ⟨-, b, b', rest, hu, hb, hb', hend⟩ := h
  simp only [List.nil_append, List.append_assoc] at hu
  have hstart : ∀ c ∈ (b ++ (name ++ (b' ++ rest))).head?, isBlank c = false := by
    intro c hc
    rw [← hu] at hc
    exact head?_trim hc
  obtain rfl := hb.eq_nil hstart
  exact ⟨b', rest, by simpa using hu, hb', hend⟩

/-- With blanks around it, a name without quotes and brackets has none either. -/
theorem core_bare {b b' : Text} (hb : IsSpace b) (hb' : IsSpace b')
    (hbare : ∀ c ∈ name, isBlank c = false ∧ isQuote c = false ∧ c ≠ '[') :
    ∀ c ∈ b ++ name ++ b', isQuote c = false ∧ c ≠ '[' := by
  intro c hc
  rcases List.mem_append.mp hc with hc | hc
  · rcases List.mem_append.mp hc with hc | hc
    · exact isBlank_apart (hb c hc)
    · exact (hbare c hc).2
  · exact isBlank_apart (hb' c hc)

/-- A hint is looked up by the name that it shows. -/
theorem Shows.hintBase_eq (h : Shows opening name (trim u)) (hne : name ≠ [])
    (hbare : ∀ c ∈ name, isBlank c = false ∧ isQuote c = false ∧ c ≠ '[') :
    hintBase u = name := by
  obtain ⟨hquotes, b, b', rest, hu, hb, hb', hend⟩ := h
  have hcore := core_bare hb hb' hbare
  have htrim : trim (b ++ name ++ b') = name := by
    rw [trim_around hb hb', trim_of_not_blank fun c hc => (hbare c hc).1]
  obtain ⟨d, ds, hd⟩ : ∃ d ds, b ++ name ++ b' = d :: ds :=
    List.exists_cons_of_ne_nil (by simp [hne])
  generalize b ++ name ++ b' = core at hu hcore htrim hd
  have hopening : (trim u).dropWhile isQuote = core ++ rest := by
    have hrun : IsRun isQuote opening (core ++ rest) := ⟨hquotes, by simp [hd, (hcore d _).1]⟩
    rw [hu, hrun.takeWhile_eq.2]
  have hclosed : ∃ rest', dropEndWhile isQuote (core ++ rest) = core ++ rest' ∧
      ∀ c ∈ rest'.head?, c = '[' := by
    cases hend with
    | quotes hall =>
      refine ⟨[], ?_, by simp⟩
      have hkept : dropEndWhile isQuote core = core :=
        dropEndWhile_of_not fun c hc => (hcore c (List.mem_of_getLast? hc)).1
      rw [dropEndWhile_append hall, hkept, List.append_nil]
    | bracket rest => exact ⟨_, dropEndWhile_append_cons (by decide) core rest, by simp⟩
  obtain ⟨rest', hclosed, hhead⟩ := hclosed
  have hrun : IsRun (fun c : Char => decide (c ≠ '[')) core rest' := by
    refine ⟨?_, ?_⟩
    · intro c hc
      simpa using (hcore c hc).2
    · intro c hc
      simpa using hhead c hc
  rw [hintBase, hopening, hclosed, hrun.takeWhile_eq.1, htrim]

/-- A hint has a wire type if it shows a name that is listed with it. -/
theorem ofHint?_eq_some_iff :
    ofHint? u = some ty ↔ ∃ name opening, (name, ty) ∈ listed ∧ Shows opening name (trim u) := by
  rw [ofHint?, lookup_listed]
  constructor
  · intro h
    obtain ⟨opening, hshows⟩ := shows_hintBase u
    exact ⟨_, opening, h, hshows⟩
  · rintro ⟨name, opening, h, hshows⟩
    obtain ⟨hne, hbare⟩ := listed_bare h
    rwa [hshows.hintBase_eq hne hbare]

theorem IsQuoted.between (h : IsQuoted inner t) :
    ∃ opening closing, t = opening ++ inner ++ closing ∧ (∀ c ∈ opening, isQuote c = true) ∧
      ∀ c ∈ closing, isQuote c = true := by
  obtain ⟨n, quote, -, hquote, -, rfl⟩ := h
  have hquotes : ∀ c ∈ List.replicate n quote, isQuote c = true :=
    fun c hc => List.eq_of_mem_replicate hc ▸ hquote
  exact ⟨_, _, rfl, hquotes, hquotes⟩

theorem IsQuoted.starts (h : IsQuoted inner t) : ∃ c ∈ t.head?, isQuote c = true := by
  obtain ⟨n, quote, hn, hquote, -, rfl⟩ := h
  refine ⟨quote, ?_, hquote⟩
  rcases hn with rfl | rfl <;> rfl

/-- Only one text is quoted in another one. -/
theorem IsQuoted.unique {inner' : Text} (h : IsQuoted inner t) (h' : IsQuoted inner' t) :
    inner = inner' := by
  obtain ⟨n, quote, hn, -, hheld, rfl⟩ := h
  obtain ⟨n', quote', hn', -, hheld', heq⟩ := h'
  rcases hn with rfl | rfl <;> rcases hn' with rfl | rfl <;>
    simp only [List.replicate_succ, List.replicate_zero, List.cons_append, List.nil_append,
      List.cons.injEq] at heq <;> obtain ⟨rfl, heq⟩ := heq
  · exact List.append_cancel_right heq
  · -- The second of three quotes would stand in the text between single ones.
    cases inner with
    | nil => simp at heq
    | cons c cs => exact absurd (List.cons.inj heq).1 (hheld c List.mem_cons_self).1
  · cases inner' with
    | nil => simp at heq
    | cons c cs =>
      exact absurd (List.cons.inj heq).1.symm (hheld' c List.mem_cons_self).1
  · exact List.append_cancel_right heq.2.2

/-- What stands in a text before quotes and has none itself ends before these quotes. -/
theorem before_quotes {quotes core rest : Text} (hq : ∀ c ∈ quotes, isQuote c = true)
    (hcore : ∀ c ∈ core, isQuote c = false) (hne : core ≠ [])
    (h : inner ++ quotes = opening ++ core ++ rest) :
    ∃ ys, inner = opening ++ core ++ ys ∧ rest = ys ++ quotes := by
  rcases List.append_eq_append_iff.mp h with ⟨ys, hys, hquotes⟩ | ⟨ys, hys, hrest⟩
  · rcases List.eq_nil_or_concat ys with rfl | ⟨ys, c, rfl⟩
    · exact ⟨[], by simpa using hys.symm, hquotes.symm⟩
    · -- The last character of the part would be a quote.
      have hlast := congrArg List.getLast? hys
      rw [List.getLast?_append_of_ne_nil _ hne, List.getLast?_eq_some_getLast hne] at hlast
      have hc : core.getLast hne = c := by simpa using hlast
      have hnot := hcore _ (List.getLast_mem hne)
      rw [hc, hq c (by rw [hquotes]; simp)] at hnot
      cases hnot
  · exact ⟨ys, hys, hrest⟩

theorem IsEnd.left {rest later : Text} (h : IsEnd (rest ++ later)) : IsEnd rest := by
  cases rest with
  | nil => exact .quotes (List.forall_mem_nil _)
  | cons c cs =>
    cases h with
    | quotes all => exact .quotes fun d hd => all d (List.mem_append_left _ hd)
    | bracket => exact .bracket cs

/-- What a string shows between its quotes stands in the text that it holds. -/
theorem IsQuoted.shows_inner (h : IsQuoted inner t) (hshows : Shows opening name t)
    (hne : name ≠ []) (hbare : ∀ c ∈ name, isBlank c = false ∧ isQuote c = false ∧ c ≠ '[') :
    ∃ opening', Shows opening' name inner := by
  obtain ⟨n, quote, -, hquote, -, rfl⟩ := h
  obtain ⟨hquotes, b, b', rest, hcut, hb, hb', hend⟩ := hshows
  have hq : ∀ c ∈ List.replicate n quote, isQuote c = true :=
    fun c hc => List.eq_of_mem_replicate hc ▸ hquote
  generalize List.replicate n quote = quotes at hcut hq
  have hcore : ∀ c ∈ b ++ name ++ b', isQuote c = false :=
    fun c hc => (core_bare hb hb' hbare c hc).1
  have hcoreNe : b ++ name ++ b' ≠ [] := by simp [hne]
  -- The quotes before the name start with those of the string.
  have hopen : IsRun isQuote opening (b ++ name ++ b' ++ rest) := by
    refine ⟨hquotes, fun c hc => ?_⟩
    obtain ⟨d, ds, hd⟩ := List.exists_cons_of_ne_nil hcoreNe
    rw [hd, List.cons_append] at hc
    obtain rfl := Option.some.inj hc
    exact hcore d (hd ▸ List.mem_cons_self)
  have hdrop : (inner ++ quotes).dropWhile isQuote = b ++ name ++ b' ++ rest := by
    rw [← hopen.takeWhile_eq.2, ← hcut, List.append_assoc, List.dropWhile_append_of_pos hq]
  have hsplit : inner ++ quotes =
      (inner ++ quotes).takeWhile isQuote ++ (b ++ name ++ b') ++ rest := by
    rw [List.append_assoc, ← hdrop, List.takeWhile_append_dropWhile]
  obtain ⟨ys, hinner, rfl⟩ := before_quotes hq hcore hcoreNe hsplit
  exact ⟨_, List.all_eq_true.mp List.all_takeWhile, b, b', ys,
    by rw [hinner, List.append_assoc], hb, hb', hend.left⟩

/-- The blanks around a name and a bracket behind it are trimmed. -/
theorem trim_bracket {b b' rest : Text} (hb : IsSpace b) (hne : name ≠ [])
    (hbare : ∀ c ∈ name, isBlank c = false) :
    trim (b ++ name ++ b' ++ '[' :: rest) =
      name ++ b' ++ '[' :: dropEndWhile isBlank rest := by
  obtain ⟨d, ds, rfl⟩ := List.exists_cons_of_ne_nil hne
  have hleft : trimLeft (b ++ (d :: ds) ++ b' ++ '[' :: rest) =
      (d :: ds) ++ b' ++ '[' :: rest := by
    rw [trimLeft, List.append_assoc, List.append_assoc, List.dropWhile_append_of_pos hb]
    rw [← List.append_assoc]
    exact List.dropWhile_cons_of_neg (by simp [hbare d List.mem_cons_self])
  rw [trim, hleft]
  exact dropEndWhile_append_cons (by decide) _ _

theorem Shows.starts (h : Shows opening name t) (hne : opening ≠ []) :
    ∃ c ∈ t.head?, isQuote c = true := by
  obtain ⟨hquotes, b, b', rest, rfl, -⟩ := h
  obtain ⟨c, cs, rfl⟩ := List.exists_cons_of_ne_nil hne
  exact ⟨c, rfl, hquotes c List.mem_cons_self⟩

/-- What an expression denotes shows in its text, also between quotes. -/
theorem Denotes.shows (h : Denotes (trim inner) e ty) (hopening : ∀ c ∈ opening, isQuote c = true)
    (hclosing : ∀ c ∈ closing, isQuote c = true) :
    ∃ name, (name, ty) ∈ listed ∧ Shows opening name (opening ++ inner ++ closing) := by
  obtain ⟨b, b', hinner, hb, hb'⟩ := exists_trim inner
  cases h with
  | name isListed =>
    refine ⟨_, isListed, hopening, b, b', closing, ?_, hb, hb', .quotes hclosing⟩
    rw [← hinner, List.append_assoc]
  | @subscript name blanks rest isListed value text isSpace =>
    refine ⟨name, isListed, hopening, b, blanks, '[' :: (rest ++ b' ++ closing), ?_, hb, isSpace,
      .bracket _⟩
    rw [hinner, text]
    simp

end Texts

end WireType

/-- The type hints of the parameters that a call binds one by one, and of the result. -/
def Definition.hints (d : Definition) : List Expr :=
  d.head.params.single.filterMap (·.hint) ++ d.head.returns.toList

namespace Source

open WireType

/-- A hint stands for a wire type, as it is written or as one quoted string. -/
inductive HasWireType [CharacterNames] (s : Source) (e : Expr) (ty : WireType) : Prop where
  | plain (denotes : Denotes (trim (s.slice e.span)) e ty)
  | quoted {inner : Text} {span : Span} {e' : Expr}
    (isQuoted : IsQuoted inner (trim (s.slice e.span)))
    (parsed : parse (trim inner) = .ok [.expr span e']) (denotes : Denotes (trim inner) e' ty)

/-- The text of a hint shows a listed name although the hint does not stand for its wire type: the
name and a bracket are those of a subscript that the hint starts with, but the hint is no subscript
of a list, or the name stands behind quotes that are not those of one string, or it is one string
and the text in it strays. -/
inductive Misleads [CharacterNames] (s : Source) (e : Expr) : Prop where
  | leading {name blanks rest : Text} {ty : WireType} {f : Expr} (isListed : (name, ty) ∈ listed)
    (text : trim (s.slice e.span) = name ++ blanks ++ '[' :: rest) (isSpace : IsSpace blanks)
    (leads : f.Leads e) (value : f.subscripted? = some name) (other : f ≠ e ∨ ty ≠ .list)
  | apart {opening name : Text} {ty : WireType} (isListed : (name, ty) ∈ listed)
    (nonempty : opening ≠ []) (shows : Shows opening name (trim (s.slice e.span)))
    (apart : ∀ inner, ¬IsQuoted inner (trim (s.slice e.span)))
  | quoted {inner name : Text} {ty : WireType} (isListed : (name, ty) ∈ listed)
    (isQuoted : IsQuoted inner (trim (s.slice e.span))) (strays : Strays inner name ty)

section Hints

variable {s : Source} {e : Expr} {ty : WireType}

/-- A hint that stands for a wire type is looked up to it. -/
theorem HasWireType.ofHint?_eq [CharacterNames] (h : s.HasWireType e ty) :
    ofHint? (s.slice e.span) = some ty := by
  apply ofHint?_eq_some_iff.mpr
  cases h with
  | plain denotes =>
    rw [← trim_trim] at denotes
    obtain ⟨name, hname, hshows⟩ := denotes.shows
      (List.forall_mem_nil _) (List.forall_mem_nil _)
    rw [List.nil_append, List.append_nil] at hshows
    exact ⟨name, [], hname, hshows⟩
  | quoted isQuoted parsed denotes =>
    obtain ⟨opening, closing, htext, hopening, hclosing⟩ := isQuoted.between
    obtain ⟨name, hname, hshows⟩ := denotes.shows hopening hclosing
    rw [← htext] at hshows
    exact ⟨name, opening, hname, hshows⟩

/-- A hint that starts with no quote stands for what it denotes as it is written. -/
theorem HasWireType.denotes [CharacterNames] (h : s.HasWireType e ty) {c : Char}
    (hstart : (trim (s.slice e.span)).head? = some c) (hc : WireType.isQuote c = false) :
    Denotes (trim (s.slice e.span)) e ty := by
  cases h with
  | plain denotes => exact denotes
  | quoted isQuoted =>
    obtain ⟨d, hd, hquote⟩ := isQuoted.starts
    obtain rfl := Option.some.inj (hstart.symm.trans hd)
    rw [hc] at hquote
    cases hquote

/-- A hint that starts with no quote misleads by a subscript that it starts with. -/
theorem Misleads.leads [CharacterNames] (h : s.Misleads e) {c : Char}
    (hstart : (trim (s.slice e.span)).head? = some c) (hc : WireType.isQuote c = false) :
    ∃ name ty, ∃ f : Expr, (name, ty) ∈ listed ∧ f.Leads e ∧ f.subscripted? = some name ∧
      (f ≠ e ∨ ty ≠ .list) := by
  have hno {d : Char} (hd : d ∈ (trim (s.slice e.span)).head?) :
      ¬WireType.isQuote d = true := by
    obtain rfl := Option.some.inj (hstart.symm.trans hd)
    simp [hc]
  cases h with
  | leading isListed _ _ leads value other => exact ⟨_, _, _, isListed, leads, value, other⟩
  | apart _ nonempty shows =>
    obtain ⟨d, hd, hquote⟩ := shows.starts nonempty
    exact absurd hquote (hno hd)
  | quoted _ isQuoted =>
    obtain ⟨d, hd, hquote⟩ := isQuoted.starts
    exact absurd hquote (hno hd)

/-- A hint that shows a name without quotes before it stands for the wire type of the name, unless
its text misleads. -/
theorem HasWireType.of_shows [CharacterNames] (hwhole : e.IsWhole s.text) (hclear : ¬s.Misleads e)
    {name : Text} (hname : (name, ty) ∈ listed) (h : Shows [] name (trim (s.slice e.span))) :
    s.HasWireType e ty := by
  obtain ⟨blanks, rest, htext, hblanks, hend⟩ := h.unquoted
  have hleads {mark : Char} {rest' : Text} (hrest : rest = mark :: rest')
      (hmark : mark = '[' ∨ Syntax.isQuote mark = true) :
      mark = '[' ∧ ∃ f : Expr, f.Leads e ∧ f.subscripted? = some name := by
    apply hwhole.leads (isPath_listed hname) hblanks hmark
    exact htext.trans (congrArg _ hrest)
  cases hend with
  | bracket rest =>
    obtain ⟨-, f, hf, hvalue⟩ := hleads rfl (.inl rfl)
    obtain rfl : f = e := by
      by_contra hne
      exact hclear (.leading hname htext hblanks hf hvalue (.inl hne))
    obtain rfl : ty = .list := by
      by_contra hne
      exact hclear (.leading hname htext hblanks hf hvalue (.inr hne))
    exact .plain (.subscript hname hvalue htext hblanks)
  | quotes hall =>
    cases rest with
    | cons mark rest =>
      -- A quote behind the name would be that of a string of its own.
      obtain ⟨rfl, -⟩ := hleads rfl (.inr (hall mark List.mem_cons_self))
      exact absurd (hall '[' List.mem_cons_self) (by decide)
    | nil =>
      have hbare := (listed_bare hname).2
      have hwritten : trim (s.slice e.span) = name := by
        rw [← trim_trim, htext, trim_eq_iff fun c hc => (hbare c hc).1]
        exact ⟨[], blanks, by simp, List.forall_mem_nil _, hblanks⟩
      exact .plain (.name (hwritten ▸ hname))

/-- A string that shows a name in the text that it holds stands for the wire type of the name,
unless that text strays. -/
theorem HasWireType.of_inner [CharacterNames] {inner opening name : Text}
    (hquoted : IsQuoted inner (trim (s.slice e.span))) (hname : (name, ty) ∈ listed)
    (hshows : Shows opening name inner) (hstays : ¬Strays inner name ty) : s.HasWireType e ty := by
  obtain ⟨hne, hbare⟩ := listed_bare hname
  have hsolid : ∀ c ∈ name, isBlank c = false := fun c hc => (hbare c hc).1
  by_cases hopening : opening = []
  · subst hopening
    obtain ⟨-, b, b', rest, rfl, hb, hb', hend⟩ := hshows
    rw [List.nil_append] at hquoted hstays
    cases hend with
    | quotes all =>
      by_cases hrest : rest = []
      · subst hrest
        have htrim : trim (b ++ name ++ b' ++ []) = name := by
          rw [List.append_nil, trim_around hb hb', trim_of_not_blank hsolid]
        obtain ⟨span, e', hparsed⟩ := parse_listed hname
        rw [← htrim] at hparsed hname
        exact .quoted hquoted hparsed (.name hname)
      · exact absurd (.before rfl hrest all) hstays
    | bracket rest =>
      have htrim : trim (b ++ name ++ b' ++ '[' :: rest) =
          name ++ b' ++ '[' :: dropEndWhile isBlank rest := trim_bracket hb hne hsolid
      by_cases hread : ∃ span e', parse (trim (b ++ name ++ b' ++ '[' :: rest)) =
          .ok [.expr span e']
      · obtain ⟨span, e', hparsed⟩ := hread
        have hvalue : e'.subscripted? = some name := by
          by_contra hother
          exact hstays (.read rfl hb hb' hparsed (.inl hother))
        obtain rfl : ty = .list := by
          by_contra hother
          exact hstays (.read rfl hb hb' hparsed (.inr hother))
        exact .quoted hquoted hparsed (.subscript hname hvalue htrim hb')
      · exact absurd (.unread rfl hb hb' fun span e' h => hread ⟨span, e', h⟩) hstays
  · exact absurd (.behind hopening hshows) hstays

/-- A hint has the wire type that it stands for, and no other one unless its text misleads. -/
theorem ofHint?_slice [CharacterNames] (hwhole : e.IsWhole s.text) (hclear : ¬s.Misleads e) :
    ofHint? (s.slice e.span) = some ty ↔ s.HasWireType e ty := by
  constructor
  · intro h
    obtain ⟨name, opening, hname, hshows⟩ := ofHint?_eq_some_iff.mp h
    by_cases hopening : opening = []
    · subst hopening
      exact .of_shows hwhole hclear hname hshows
    · obtain ⟨inner, hquoted⟩ : ∃ inner, IsQuoted inner (trim (s.slice e.span)) := by
        by_contra hno
        exact hclear (.apart hname hopening hshows fun inner hquoted => hno ⟨inner, hquoted⟩)
      obtain ⟨hne, hbare⟩ := listed_bare hname
      obtain ⟨opening', hinner⟩ := hquoted.shows_inner hshows hne hbare
      exact .of_inner hquoted hname hinner fun hstrays => hclear (.quoted hname hquoted hstrays)
  · intro h
    exact h.ofHint?_eq

end Hints

section Functions

variable {path text : Text} {s : Source} {d : Definition}

/-- The hints of the functions at the top level are expressions of their own. -/
theorem hint_whole [CharacterNames] (hs : ofText path text = .ok s) (hd : d ∈ s.definitions)
    {e : Expr} (he : e ∈ d.hints) : e.IsWhole s.text := by
  obtain ⟨t, ht, hof⟩ := List.mem_filterMap.mp hd
  obtain rfl := ofStmt?_eq_some_iff.mp hof
  obtain ⟨hparams, hreturns⟩ := parse_hints (parse_text hs) ht
  rcases List.mem_append.mp he with he | he
  · obtain ⟨p, hp, hhint⟩ := List.mem_filterMap.mp he
    exact hparams p hp e hhint
  · exact hreturns e (Option.mem_toList.mp he)

/-- A hint that does not mislead gives a parameter or the result the wire type that it stands for,
and none if it stands for none. A function with such a parameter is served by no server. -/
theorem route_wireTypes [CharacterNames] (hs : ofText path text = .ok s) (hd : d ∈ s.definitions) :
    List.Forall₂ (fun p q => (∀ e ∈ p.hint, ¬s.Misleads e) → ∀ ty, q.wireType = some ty ↔
        ∃ e, p.hint = some e ∧ s.HasWireType e ty)
      d.head.params.single (d.route s).params ∧
    ((∀ e ∈ d.head.returns, ¬s.Misleads e) → ∀ ty, (d.route s).returnType = some ty ↔
      ∃ e, d.head.returns = some e ∧ s.HasWireType e ty) ∧
    ∀ p ∈ d.head.params.single,
      (∀ e ∈ p.hint, ¬s.Misleads e) → (∀ e ∈ p.hint, ∀ ty, ¬s.HasWireType e ty) →
      ∀ routes, d.route s ∈ routes →
        ∃ r ∈ routes, r.unresolved ≠ [] ∧
          Route.validate routes = .error (.untyped r.name (r.params.map (·.name))) := by
  have hparam : ∀ p ∈ d.head.params.single, (∀ e ∈ p.hint, ¬s.Misleads e) → ∀ ty,
      s.wireType? p = some ty ↔ ∃ e, p.hint = some e ∧ s.HasWireType e ty := by
    intro p hp hclear ty
    rw [wireType?, Option.bind_eq_some_iff]
    refine exists_congr fun e => and_congr_right fun he => ofHint?_slice ?_ (hclear e he)
    exact hint_whole hs hd (List.mem_append_left _ (List.mem_filterMap.mpr ⟨p, hp, he⟩))
  refine ⟨?_, ?_, ?_⟩
  · rw [Definition.route, List.forall₂_map_right_iff, List.forall₂_same]
    intro p hp hclear ty
    rw [param_wireType]
    exact hparam p hp hclear ty
  · intro hclear ty
    rw [Definition.route, Option.bind_eq_some_iff]
    refine exists_congr fun e => and_congr_right fun he => ofHint?_slice ?_ (hclear e he)
    exact hint_whole hs hd (List.mem_append_right _ (Option.mem_toList.mpr he))
  · intro p hp hclear hnone routes hroute
    have hunresolved : (d.route s).unresolved ≠ [] := by
      intro htyped
      obtain ⟨ty, hty⟩ := Option.isSome_iff_exists.mp ((unresolved_route s d).mp htyped p hp)
      obtain ⟨e, he, hstands⟩ := (hparam p hp hclear ty).mp hty
      exact hnone e he ty hstands
    exact Route.validate_of_unresolved hroute hunresolved

end Functions

def listHint : Expr :=
  .subscript ⟨9, 18⟩ (.name ⟨9, 13⟩ "list") (.name ⟨14, 17⟩ "int")

def quotedHint : Expr :=
  .constant ⟨23, 41⟩ (.text "typing.List[str]")

def unionHint : Expr :=
  .binary ⟨46, 56⟩ (.name ⟨46, 49⟩ "int") .bitOr (.constant ⟨52, 56⟩ .none)

def tableHint : Expr :=
  .name ⟨61, 70⟩ "DataFrame"

def hinting : Definition where
  span := ⟨0, 84⟩
  head := ⟨false, "f", ⟨[], [⟨⟨6, 18⟩, "a", some listHint, none⟩,
    ⟨⟨20, 41⟩, "b", some quotedHint, none⟩, ⟨⟨43, 56⟩, "c", some unionHint, none⟩], none, [], none⟩,
    [], some tableHint, []⟩
  body := [.return ⟨76, 84⟩ (some (.name ⟨83, 84⟩ "a"))]

def hinted : Source where
  path := "src/App.py"
  text := "def f(a: list[int], b: \"typing.List[str]\", c: int | None) -> DataFrame:
    return a
"
  body := [.function hinting.span hinting.head hinting.body]

theorem hinted_list : hinted.HasWireType listHint .list := by
  have hlisted : ("list".toList, WireType.list) ∈ listed := by decide
  have htext : trim (hinted.slice listHint.span) =
      "list".toList ++ [] ++ '[' :: "int]".toList := rfl
  exact .plain (.subscript hlisted rfl htext (List.forall_mem_nil _))

def listText : Text :=
  "typing.List[str]"

def listTree : Expr :=
  .subscript ⟨0, 16⟩ (.attribute ⟨0, 11⟩ (.name ⟨0, 6⟩ "typing") "List") (.name ⟨12, 15⟩ "str")

theorem hinted_isQuoted : IsQuoted listText (trim (hinted.slice quotedHint.span)) := by
  have hheld : (listText.all fun c => c != '"' && c != '\\') = true := by decide
  refine ⟨1, '"', .inl rfl, rfl, fun c hc => ?_, rfl⟩
  simpa using List.all_eq_true.mp hheld c hc

set_option maxRecDepth 20000 in
theorem listText_read : parse (trim listText) = .ok [.expr ⟨0, 16⟩ listTree] := by rfl

theorem hinted_quoted : hinted.HasWireType quotedHint .list := by
  have hlisted : ("typing.List".toList, WireType.list) ∈ listed := by decide
  have htext : trim listText = "typing.List".toList ++ [] ++ '[' :: "str]".toList := rfl
  exact .quoted hinted_isQuoted listText_read
    (.subscript hlisted rfl htext (List.forall_mem_nil _))

/-- A text with a subscript of a listed name and nothing else does not stray. -/
theorem listText_stays {name : Text} {ty : WireType} (hname : (name, ty) ∈ listed) :
    ¬Strays listText name ty := by
  intro h
  cases h with
  | behind nonempty shows =>
    obtain ⟨c, hc, hquote⟩ := shows.starts nonempty
    obtain rfl : 't' = c := Option.some.inj hc
    cases hquote
  | before text nonempty quotes =>
    have hlast := congrArg List.getLast? text
    rw [List.getLast?_append_of_ne_nil _ nonempty, List.getLast?_eq_some_getLast nonempty] at hlast
    have hquote := quotes _ (List.getLast_mem nonempty)
    rw [← Option.some.inj (hlast : some ']' = _)] at hquote
    cases hquote
  | unread text isSpace isSpace' unread => exact unread _ _ listText_read
  | read text isSpace isSpace' parsed other =>
    obtain ⟨hne, hbare⟩ := listed_bare hname
    have htrim : trim listText = listText := rfl
    have hshows : Shows [] name (trim listText) := by
      rw [htrim, text]
      exact ⟨List.forall_mem_nil _, _, _, _, rfl, isSpace, isSpace', .bracket _⟩
    obtain rfl : "typing.List".toList = name := hshows.hintBase_eq hne hbare
    obtain ⟨rfl, rfl⟩ : _ ∧ listTree = _ := by
      simpa using Except.ok.inj (listText_read.symm.trans parsed)
    rcases other with other | other
    · exact other rfl
    · exact other (Option.some.inj (lookup_listed.mpr hname)).symm

theorem hinted_table : hinted.HasWireType tableHint .table := by
  have hlisted : (trim (hinted.slice tableHint.span), WireType.table) ∈ listed := by decide +kernel
  exact .plain (.name hlisted)

theorem hinted_union (ty : WireType) : ¬hinted.HasWireType unionHint ty := by
  have htext : trim (hinted.slice unionHint.span) = "int | None" := rfl
  intro h
  have hdenotes := h.denotes (congrArg List.head? htext) rfl
  rw [htext] at hdenotes
  cases hdenotes with
  | name isListed => simp [listed] at isListed
  | subscript _ value => cases value

theorem hinted_list_clear : ¬hinted.Misleads listHint := by
  intro h
  obtain ⟨name, ty, f, isListed, leads, value, other⟩ := h.leads rfl rfl
  cases leads with
  | self =>
    obtain rfl : "list".toList = _ := Option.some.inj value
    rcases other with other | other
    · exact other rfl
    · exact other (Option.some.inj (lookup_listed.mpr isListed)).symm
  | first first leads =>
    obtain rfl := Option.some.inj first
    obtain rfl := leads.eq rfl
    cases value

theorem hinted_quoted_clear : ¬hinted.Misleads quotedHint := by
  intro h
  cases h with
  | leading isListed text isSpace leads value other =>
    obtain rfl := leads.eq rfl
    cases value
  | apart isListed nonempty shows apart => exact apart _ hinted_isQuoted
  | quoted isListed isQuoted strays =>
    obtain rfl := isQuoted.unique hinted_isQuoted
    exact listText_stays isListed strays

theorem hinted_union_clear : ¬hinted.Misleads unionHint := by
  intro h
  obtain ⟨name, ty, f, -, leads, value, -⟩ := h.leads rfl rfl
  cases leads with
  | self => cases value
  | first first leads =>
    obtain rfl := Option.some.inj first
    obtain rfl := leads.eq rfl
    cases value

theorem hinted_table_clear : ¬hinted.Misleads tableHint := by
  intro h
  obtain ⟨name, ty, f, -, leads, value, -⟩ := h.leads rfl rfl
  obtain rfl := leads.eq rfl
  cases value

set_option maxRecDepth 20000 in
/-- It has the wire types of its lists and of its table, and is rejected for the union. -/
theorem route_wireTypes_hinted :
    ofText "src/App.py" hinted.text = .ok hinted ∧ hinting ∈ hinted.definitions ∧
    (∀ e ∈ hinting.hints, ¬hinted.Misleads e) ∧
    (hinting.route hinted).params.map (·.wireType) = [some .list, some .list, none] ∧
    (hinting.route hinted).returnType = some .table ∧
    Route.validate [hinting.route hinted] = .error (.untyped "f" ["a", "b", "c"]) := by
  have hfile : ofText "src/App.py" hinted.text = .ok hinted := by rfl
  have hmem : hinting ∈ hinted.definitions := .head _
  have hlist : ∀ e ∈ some listHint, ¬hinted.Misleads e := by simpa using hinted_list_clear
  have hquoted : ∀ e ∈ some quotedHint, ¬hinted.Misleads e := by simpa using hinted_quoted_clear
  have hunion : ∀ e ∈ some unionHint, ¬hinted.Misleads e := by simpa using hinted_union_clear
  have htable : ∀ e ∈ some tableHint, ¬hinted.Misleads e := by simpa using hinted_table_clear
  have hnone : ∀ e ∈ some unionHint, ∀ ty, ¬hinted.HasWireType e ty := by
    simpa using hinted_union
  obtain ⟨hparams, hreturn, hrejects⟩ := route_wireTypes hfile hmem
  refine ⟨hfile, hmem, ?_, ?_, (hreturn htable _).mpr ⟨_, rfl, hinted_table⟩, ?_⟩
  · simpa [Definition.hints, hinting, Parameters.single] using
      ⟨hinted_list_clear, hinted_quoted_clear, hinted_union_clear, hinted_table_clear⟩
  · obtain ⟨a, b, c, hroute⟩ : ∃ a b c, (hinting.route hinted).params = [a, b, c] :=
      ⟨_, _, _, rfl⟩
    rw [hroute] at hparams ⊢
    obtain ⟨ha, hparams⟩ := List.forall₂_cons.mp hparams
    obtain ⟨hb, hparams⟩ := List.forall₂_cons.mp hparams
    obtain ⟨hc, -⟩ := List.forall₂_cons.mp hparams
    have ha := (ha hlist .list).mpr ⟨_, rfl, hinted_list⟩
    have hb := (hb hquoted .list).mpr ⟨_, rfl, hinted_quoted⟩
    have hc : c.wireType = none := by
      apply Option.eq_none_iff_forall_ne_some.mpr
      intro ty hty
      obtain ⟨e, he, hstands⟩ := (hc hunion ty).mp hty
      exact hnone e he ty hstands
    simp [ha, hb, hc]
  · have hparam : ⟨⟨43, 56⟩, "c", some unionHint, none⟩ ∈ hinting.head.params.single :=
      List.mem_of_getElem? (i := 2) rfl
    obtain ⟨r, hr, -, hvalidate⟩ := hrejects _ hparam hunion hnone _ List.mem_cons_self
    obtain rfl := List.mem_singleton.mp hr
    exact hvalidate

def optionalHint : Expr :=
  .binary ⟨9, 25⟩ (.subscript ⟨9, 18⟩ (.name ⟨9, 13⟩ "list") (.name ⟨14, 17⟩ "int")) .bitOr
    (.constant ⟨21, 25⟩ .none)

def choosing : Definition where
  span := ⟨0, 40⟩
  head := ⟨false, "f", ⟨[], [⟨⟨6, 25⟩, "x", some optionalHint, none⟩], none, [], none⟩, [], none,
    []⟩
  body := [.return ⟨32, 40⟩ (some (.name ⟨39, 40⟩ "x"))]

def chosen : Source where
  path := "src/App.py"
  text := "def f(x: list[int] | None):\n    return x\n"
  body := [.function choosing.span choosing.head choosing.body]

set_option maxRecDepth 20000 in
/-- It is taken for a list, although it stands for no wire type. -/
theorem optionalHint_wireType :
    ofText "src/App.py" chosen.text = .ok chosen ∧ choosing ∈ chosen.definitions ∧
    choosing.head.params.single.map (·.hint) = [some optionalHint] ∧
    (∀ ty, ¬chosen.HasWireType optionalHint ty) ∧
    (choosing.route chosen).params.map (·.wireType) = [some .list] ∧
    Route.validate [choosing.route chosen] = .ok () := by
  have htext : trim (chosen.slice optionalHint.span) = "list[int] | None" := rfl
  refine ⟨by rfl, .head _, rfl, ?_, by decide +kernel, by decide +kernel⟩
  intro ty h
  have hdenotes := h.denotes (congrArg List.head? htext) rfl
  rw [htext] at hdenotes
  cases hdenotes with
  | name isListed => simp [listed] at isListed
  | subscript _ value => cases value

end Source
end Pagewright
