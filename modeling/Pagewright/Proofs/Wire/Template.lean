import Pagewright.Proofs.Wire.Script

namespace Pagewright.Wire

open Syntax

def isLiteral (c : Char) : Bool :=
  c ≠ '`' && c ≠ '\\' && c ≠ '$'

theorem isLiteral_of_valid {id : Text} (hv : Identifier.Valid id) : ∀ c ∈ id, isLiteral c = true := by
  obtain ⟨c, cs, rfl, hc, hcs⟩ := hv
  have hpart : ∀ d, Identifier.isPart d = true → isLiteral d = true := by
    intro d hd
    simp only [isLiteral, Bool.and_eq_true, decide_eq_true_eq]
    refine ⟨⟨?_, ?_⟩, ?_⟩ <;> (rintro rfl; exact absurd hd (by decide))
  intro d hd
  rcases List.mem_cons.mp hd with rfl | hd
  · exact hpart _ (isPart_of_isStart hc)
  · exact hpart d (hcs d hd)

theorem word_valid {id rest : Text} (hv : Identifier.Valid id)
    (hr : ∀ c ∈ rest.head?, Identifier.isPart c = false) : word? (id ++ rest) = some (id, rest) := by
  obtain ⟨htake, hdrop⟩ := Reader.takeWhile_valid hv hr
  obtain ⟨c, cs, rfl, hc, -⟩ := hv
  rw [word?, htake, hdrop]
  simp [hc]

def IsName (id : Text) : Prop :=
  Identifier.Valid id ∧ id ∉ reservedWords

instance (id : Text) : Decidable (IsName id) :=
  inferInstanceAs (Decidable (_ ∧ _))

theorem readScript_word {id rest : Text} {n : Nat} (hv : IsName id)
    (hr : ∀ c ∈ rest.head?, Identifier.isPart c = false) :
    readScript (n + 1) (id ++ rest) = readTrailers n (.name id) rest := by
  have hw := word_valid hv.1 hr
  obtain ⟨⟨c, cs, rfl, hc, -⟩, hid⟩ := hv
  have hne : c ≠ '`' ∧ c ≠ '\'' ∧ c ≠ '(' := by
    refine ⟨?_, ?_, ?_⟩ <;> (rintro rfl; exact absurd hc (by decide))
  rw [readScript, hw]
  · simp only [bind, Option.bind, List.contains_eq_mem, hid, decide_false, Bool.false_eq_true,
      if_false]
  · rintro t h
    exact hne.1 (List.cons.inj h).1
  · rintro t h
    exact hne.2.1 (List.cons.inj h).1
  · rintro t h
    exact hne.2.2 (List.cons.inj h).1

theorem readTrailers_member {e : Script} {id rest : Text} {n : Nat} (hv : Identifier.Valid id)
    (hr : ∀ c ∈ rest.head?, Identifier.isPart c = false) :
    readTrailers (n + 1) e ('.' :: (id ++ rest)) = readTrailers n (.member e id) rest := by
  rw [readTrailers, word_valid hv hr]
  rfl

theorem readTrailers_call {e arg : Script} {t rest : Text} {n : Nat}
    (h : readScript n t = some (arg, ')' :: rest)) :
    readTrailers (n + 1) e ('(' :: t) = readTrailers n (.call e arg) rest := by
  rw [readTrailers, h]
  rfl

section Reading

def IsEnd (t : Text) : Prop :=
  ∀ c ∈ t.head?, Identifier.isPart c = false ∧ c ≠ '.' ∧ c ≠ '('

variable {e arg : Script} {p : Template} {t rest : Text}

theorem isEnd_nil : IsEnd [] := by
  rintro c ⟨⟩

theorem isEnd_cons {c : Char} (hc : Identifier.isPart c = false ∧ c ≠ '.' ∧ c ≠ '(') (rest : Text) :
    IsEnd (c :: rest) := by
  rintro d ⟨⟩
  exact hc

theorem isEnd_brace (rest : Text) : IsEnd ('}' :: rest) :=
  isEnd_cons (by decide) rest

theorem isEnd_paren (rest : Text) : IsEnd (')' :: rest) :=
  isEnd_cons (by decide) rest

theorem IsEnd.not_part (h : IsEnd rest) : ∀ c ∈ rest.head?, Identifier.isPart c = false :=
  fun c hc => (h c hc).1

theorem readTrailers_isEnd (h : IsEnd rest) {n : Nat} (hn : 0 < n) :
    readTrailers n e rest = some (e, rest) := by
  obtain ⟨n, rfl⟩ : ∃ m, n = m + 1 := ⟨n - 1, by omega⟩
  rw [readTrailers]
  · rintro t rfl
    exact (h '.' rfl).2.1 rfl
  · rintro t rfl
    exact (h '(' rfl).2.2 rfl

/-- An expression stands at the start of a text, and the rest follows it. -/
def Script.IsAt (e : Script) (t rest : Text) : Prop :=
  ∀ n, 2 * t.length ≤ n → readScript n t = some (e, rest)

def Template.IsAt (p : Template) (t rest : Text) : Prop :=
  ∀ n, 2 * t.length ≤ n → readTemplate n t = some (p, rest)

theorem valid_pos {id : Text} (h : Identifier.Valid id) : 0 < id.length := by
  obtain ⟨c, cs, rfl, -⟩ := h
  exact Nat.succ_pos _

theorem Script.isAt_name {id : Text} (hv : IsName id) (h : IsEnd rest) :
    (Script.name id).IsAt (id ++ rest) rest := by
  intro n hn
  have hpos := valid_pos hv.1
  rw [List.length_append] at hn
  obtain ⟨n, rfl⟩ : ∃ m, n = m + 1 := ⟨n - 1, by omega⟩
  rw [readScript_word hv h.not_part]
  exact readTrailers_isEnd h (by omega)

theorem Script.isAt_call {f : Text} (hf : IsName f) (harg : arg.IsAt t (')' :: rest))
    (ht : rest.length < t.length) (h : IsEnd rest) :
    (Script.call (.name f) arg).IsAt (f ++ '(' :: t) rest := by
  intro n hn
  have hpos := valid_pos hf.1
  rw [List.length_append, List.length_cons] at hn
  obtain ⟨n, rfl⟩ : ∃ m, n = m + 2 := ⟨n - 2, by omega⟩
  rw [readScript_word hf (by simp; decide), readTrailers_call (harg n (by omega))]
  exact readTrailers_isEnd h (by omega)

theorem Script.isAt_method {object method : Text} (ho : IsName object)
    (hm : Identifier.Valid method) (harg : arg.IsAt t (')' :: rest))
    (ht : rest.length < t.length) (h : IsEnd rest) :
    (Script.call (.member (.name object) method) arg).IsAt
      (object ++ '.' :: (method ++ '(' :: t)) rest := by
  intro n hn
  have hpos := valid_pos ho.1
  simp only [List.length_append, List.length_cons] at hn
  obtain ⟨n, rfl⟩ : ∃ m, n = m + 3 := ⟨n - 3, by omega⟩
  rw [readScript_word ho (by simp; decide), readTrailers_member hm (by simp; decide),
    readTrailers_call (harg n (by omega))]
  exact readTrailers_isEnd h (by omega)

theorem Script.isAt_template (hp : p.IsAt t rest) (h : IsEnd rest) :
    (Script.template p).IsAt ('`' :: t) rest := by
  intro n hn
  rw [List.length_cons] at hn
  obtain ⟨n, rfl⟩ : ∃ m, n = m + 1 := ⟨n - 1, by omega⟩
  rw [readScript, hp n (by omega)]
  exact readTrailers_isEnd h (by omega)

theorem Template.isAt_last : (Template.last []).IsAt ('`' :: rest) rest := by
  intro n hn
  rw [List.length_cons] at hn
  obtain ⟨n, rfl⟩ : ∃ m, n = m + 1 := ⟨n - 1, by omega⟩
  rfl

theorem Template.isAt_push {c : Char} (hc : isLiteral c = true) (h : p.IsAt t rest) :
    (p.push c).IsAt (c :: t) rest := by
  intro n hn
  rw [List.length_cons] at hn
  obtain ⟨n, rfl⟩ : ∃ m, n = m + 1 := ⟨n - 1, by omega⟩
  simp only [isLiteral, Bool.and_eq_true, decide_eq_true_eq] at hc
  obtain ⟨⟨h1, h2⟩, h3⟩ := hc
  rw [readTemplate, h n (by omega)]
  · rfl
  · exact h1
  · exact h2
  · rintro t rfl
    simp at h3

def Template.behind (s : Text) (p : Template) : Template :=
  s.foldr Template.push p

theorem Template.isAt_behind {s : Text} (hs : ∀ c ∈ s, isLiteral c = true) (h : p.IsAt t rest) :
    (p.behind s).IsAt (s ++ t) rest := by
  induction s with
  | nil => exact h
  | cons c cs ih =>
    exact Template.isAt_push (hs c (by simp)) (ih fun d hd => hs d (by simp [hd]))

theorem Template.isAt_hole (he : e.IsAt (t ++ '}' :: rest) ('}' :: rest)) {later : Text}
    (h : p.IsAt rest later) :
    (Template.hole [] e p).IsAt ('$' :: '\x7b' :: (t ++ '}' :: rest)) later := by
  intro n hn
  simp only [List.length_cons, List.length_append] at hn
  obtain ⟨n, rfl⟩ : ∃ m, n = m + 1 := ⟨n - 1, by omega⟩
  have hexpr := he n (by simp; omega)
  rw [readTemplate, hexpr]
  simp only [bind, Option.bind, show afterMark "\x7d" ('}' :: rest) = some rest from rfl,
    h n (by omega)]
  rfl

end Reading

section Parts

def escaping (e : Script) : Script :=
  .call (.name "encodeURIComponent".toList) e

def keyed (key : Text) (p : Template) : Template :=
  (p.push '=').behind key

/-- The expression that joins the texts of a list, each escaped under a name. -/
def joining (id : Text) : Script :=
  .call (.member (.call (.member (.name id) "map".toList) (.arrow "v".toList (.template
    (keyed id (.hole [] (escaping (.name "v".toList)) (.last [])))))) "join".toList) (.text ['&'])

def stringified (id : Text) : Script :=
  .call (.member (.name "JSON".toList) "stringify".toList) (.name id)

def partTemplate (p : Param) (later : Template) : Template :=
  match p.wireType with
  | some .list => .hole [] (joining p.name) later
  | some .table => keyed p.name (.hole [] (escaping (stringified p.name)) later)
  | _ => keyed p.name (.hole [] (escaping (.name p.name)) later)

/-- What carries some parameters, each behind a mark. -/
def queryTemplate (mark : Char) : List Param → Template
  | [] => .last []
  | p :: ps => (partTemplate p (queryTemplate '&' ps)).push mark

def queryText (mark : Char) : List Param → Text
  | [] => []
  | p :: ps => mark :: (Client.queryPart p ++ queryText '&' ps)

variable {q : Template} {id t rest : Text}

theorem isAt_escaping {e : Script} (he : e.IsAt (t ++ ')' :: rest) (')' :: rest))
    (h : IsEnd rest) :
    (escaping e).IsAt ("encodeURIComponent".toList ++ '(' :: (t ++ ')' :: rest)) rest :=
  Script.isAt_call (by decide) he (by simp; omega) h

theorem isAt_keyed (hid : IsName id) (h : q.IsAt t rest) :
    (keyed id q).IsAt (id ++ '=' :: t) rest :=
  Template.isAt_behind (isLiteral_of_valid hid.1) (Template.isAt_push rfl h)

/-- A key and a hole for an escaped value. -/
theorem isAt_carried {e : Script} (hid : IsName id)
    (he : ∀ rest, e.IsAt (t ++ ')' :: rest) (')' :: rest)) {rest later : Text}
    (h : q.IsAt rest later) :
    (keyed id (.hole [] (escaping e) q)).IsAt
      (id ++ "=$\x7bencodeURIComponent(".toList ++ t ++ ")\x7d".toList ++ rest) later := by
  have hcall := isAt_escaping (he ('}' :: rest)) (isEnd_brace rest)
  have htext : "encodeURIComponent".toList ++ '(' :: (t ++ ')' :: '}' :: rest) =
      ("encodeURIComponent".toList ++ '(' :: (t ++ [')'])) ++ '}' :: rest := by simp
  rw [htext] at hcall
  have hall := isAt_keyed hid (Template.isAt_hole hcall h)
  have hmark : "=$\x7bencodeURIComponent(".toList =
      '=' :: '$' :: '\x7b' :: ("encodeURIComponent".toList ++ ['(']) := rfl
  have hend : ")\x7d".toList = [')', '}'] := rfl
  rw [hmark, hend]
  simpa using hall

/-- A function of the texts of a list. -/
theorem isAt_arrow (hq : q.IsAt t (')' :: rest)) :
    (Script.arrow "v".toList (.template q)).IsAt ("(v) => `".toList ++ t) (')' :: rest) := by
  intro n hn
  have hlen : ("(v) => `".toList ++ t).length = t.length + 8 := by
    rw [List.length_append, Nat.add_comm]
    rfl
  rw [hlen] at hn
  obtain ⟨n, rfl⟩ : ∃ m, n = m + 1 := ⟨n - 1, by omega⟩
  have htext : "(v) => `".toList ++ t = '(' :: ("v".toList ++ (") => ".toList ++ '`' :: t)) := rfl
  have hmark : afterMark ") => " (") => ".toList ++ '`' :: t) = some ('`' :: t) := rfl
  have hbody := Script.isAt_template hq (isEnd_paren rest) n (by rw [List.length_cons]; omega)
  rw [htext, readScript, word_valid (by decide) (by simp; decide)]
  simp only [bind, Option.bind, hmark, hbody]
  rfl

/-- The part of a list maps its texts to pairs and joins these. -/
theorem isAt_joining (hid : IsName id) (h : IsEnd rest) :
    (joining id).IsAt (id ++ ".map((v) => `".toList ++ id
      ++ "=$\x7bencodeURIComponent(v)\x7d`).join('&')".toList ++ rest) rest := by
  have hname (rest : Text) :
      (Script.name "v".toList).IsAt ("v".toList ++ ')' :: rest) (')' :: rest) :=
    Script.isAt_name (by decide) (isEnd_paren rest)
  have harrow := isAt_arrow (isAt_carried hid hname
    (@Template.isAt_last (')' :: '.' :: ("join('&')".toList ++ rest))))
  have htext : id ++ ".map((v) => `".toList ++ id
        ++ "=$\x7bencodeURIComponent(v)\x7d`).join('&')".toList ++ rest =
      id ++ '.' :: ("map".toList ++ '(' :: ("(v) => `".toList ++ (id
        ++ "=$\x7bencodeURIComponent(".toList ++ "v".toList ++ ")\x7d".toList
        ++ '`' :: ')' :: '.' :: ("join('&')".toList ++ rest)))) := by
    have hmap : ".map((v) => `".toList = '.' :: ("map".toList ++ '(' :: "(v) => `".toList) := rfl
    have hjoin : "=$\x7bencodeURIComponent(v)\x7d`).join('&')".toList =
        "=$\x7bencodeURIComponent(".toList ++ ("v".toList ++ (")\x7d".toList
          ++ '`' :: ')' :: '.' :: "join('&')".toList)) := rfl
    rw [hmap, hjoin]
    simp only [List.append_assoc, List.cons_append]
  rw [htext]
  intro n hn
  have hpos := valid_pos hid.1
  simp only [List.length_append, List.length_cons] at hn
  obtain ⟨n, rfl⟩ : ∃ m, n = m + 5 := ⟨n - 5, by omega⟩
  have hcall := harrow (n + 2) (by simp only [List.length_append, List.length_cons]; omega)
  have hsep : readScript n ('\'' :: '&' :: '\'' :: ')' :: rest) =
      some (.text ['&'], ')' :: rest) := by
    obtain ⟨n, rfl⟩ : ∃ m, n = m + 2 := ⟨n - 2, by omega⟩
    rfl
  have hjoin : '.' :: ("join('&')".toList ++ rest) =
      '.' :: ("join".toList ++ '(' :: '\'' :: '&' :: '\'' :: ')' :: rest) := rfl
  rw [readScript_word hid (by simp; decide),
    readTrailers_member (by decide) (by simp; decide), readTrailers_call hcall, hjoin,
    readTrailers_member (by decide) (by simp; decide), readTrailers_call hsep]
  exact readTrailers_isEnd h (by omega)

/-- A list in a hole of its own. -/
theorem isAt_repeated (hid : IsName id) {later : Text} (h : q.IsAt rest later) :
    (Template.hole [] (joining id) q).IsAt ("$\x7b".toList ++ id ++ ".map((v) => `".toList ++ id
      ++ "=$\x7bencodeURIComponent(v)\x7d`).join('&')\x7d".toList ++ rest) later := by
  have hhole := Template.isAt_hole (isAt_joining hid (isEnd_brace rest)) h
  have hend : "=$\x7bencodeURIComponent(v)\x7d`).join('&')\x7d".toList =
      "=$\x7bencodeURIComponent(v)\x7d`).join('&')".toList ++ ['}'] := rfl
  have htext : "$\x7b".toList ++ id ++ ".map((v) => `".toList ++ id
        ++ "=$\x7bencodeURIComponent(v)\x7d`).join('&')\x7d".toList ++ rest =
      '$' :: '\x7b' :: (id ++ ".map((v) => `".toList ++ id
        ++ "=$\x7bencodeURIComponent(v)\x7d`).join('&')".toList ++ '}' :: rest) := by
    rw [hend]
    simp only [List.append_assoc, List.cons_append, List.nil_append]
    rfl
  rw [htext]
  exact hhole

/-- A key and a hole for an escaped JSON text. -/
theorem isAt_stringified (hid : IsName id) {later : Text} (h : q.IsAt rest later) :
    (keyed id (.hole [] (escaping (stringified id)) q)).IsAt
      (id ++ "=$\x7bencodeURIComponent(JSON.stringify(".toList ++ id ++ "))\x7d".toList ++ rest)
      later := by
  have hjson (rest : Text) : (stringified id).IsAt
      ("JSON".toList ++ '.' :: ("stringify".toList ++ '(' :: (id ++ [')'])) ++ ')' :: rest)
      (')' :: rest) := by
    have htext : "JSON".toList ++ '.' :: ("stringify".toList ++ '(' :: (id ++ [')'])) ++ ')' :: rest =
        "JSON".toList ++ '.' :: ("stringify".toList ++ '(' :: (id ++ ')' :: ')' :: rest)) := by
      simp
    rw [htext]
    exact Script.isAt_method (by decide) (by decide)
      (Script.isAt_name hid (isEnd_paren _)) (by simp; omega) (isEnd_paren rest)
  have hcarried := isAt_carried hid hjson h
  have hopen : "=$\x7bencodeURIComponent(JSON.stringify(".toList =
      "=$\x7bencodeURIComponent(".toList ++ ("JSON".toList ++ '.' :: ("stringify".toList ++ ['('])) :=
    rfl
  have htext : id ++ "=$\x7bencodeURIComponent(JSON.stringify(".toList ++ id ++ "))\x7d".toList ++ rest =
      id ++ "=$\x7bencodeURIComponent(".toList
        ++ ("JSON".toList ++ '.' :: ("stringify".toList ++ '(' :: (id ++ [')']))) ++ ")\x7d".toList
        ++ rest := by
    rw [hopen]
    simp only [List.append_assoc, List.cons_append, List.nil_append]
    rfl
  rw [htext]
  exact hcarried

/-- The part of a parameter reads as its template. -/
theorem isAt_part {p : Param} (hp : IsName p.name) {later : Text} (h : q.IsAt rest later) :
    (partTemplate p q).IsAt (Client.queryPart p ++ rest) later := by
  have hplain : (keyed p.name (.hole [] (escaping (.name p.name)) q)).IsAt
      (p.name ++ "=$\x7bencodeURIComponent(".toList ++ p.name ++ ")\x7d".toList ++ rest) later :=
    isAt_carried hp (fun rest => Script.isAt_name hp (isEnd_paren rest)) h
  unfold partTemplate Client.queryPart
  cases p.wireType with
  | none => exact hplain
  | some ty =>
    cases ty with
    | list => exact isAt_repeated hp h
    | table => exact isAt_stringified hp h
    | _ => exact hplain

theorem isAt_query {ps : List Param} (hps : ∀ p ∈ ps, IsName p.name) {mark : Char}
    (hmark : isLiteral mark = true) :
    (queryTemplate mark ps).IsAt (queryText mark ps ++ '`' :: rest) rest := by
  induction ps generalizing mark with
  | nil => exact Template.isAt_last
  | cons p ps ih =>
    have hlater : (queryTemplate '&' ps).IsAt (queryText '&' ps ++ '`' :: rest) rest :=
      ih (fun q hq => hps q (by simp [hq])) rfl
    rw [queryText, List.cons_append, List.append_assoc]
    exact Template.isAt_push hmark (isAt_part (hps p (by simp)) hlater)

/-- An address is the path of the route and one part for each parameter. -/
theorem address_text (r : Route) :
    Client.address r = "/api/".toList ++ r.name ++ queryText '?' r.params := by
  have hjoin (p : Param) (ps : List Param) :
      Text.join "&" ((p :: ps).map Client.queryPart) = Client.queryPart p ++ queryText '&' ps := by
    induction ps generalizing p with
    | nil => simp [Text.join, queryText]
    | cons p' ps ih =>
      have ih := ih p'
      simp only [Text.join, List.map_cons, List.intercalate_cons_cons] at ih ⊢
      rw [ih, queryText, List.append_assoc]
      rfl
  unfold Client.address
  cases hps : r.params with
  | nil => simp [queryText]
  | cons p ps =>
    rw [← hps]
    simp only [hps]
    rw [if_neg (by simp), hjoin, queryText]
    simp

def addressTemplate (r : Route) : Template :=
  (queryTemplate '?' r.params).behind ("/api/".toList ++ r.name)

/-- The address of a call reads as one template literal. -/
theorem isAt_address {r : Route} (hname : Identifier.Valid r.name)
    (hparams : ∀ p ∈ r.params, IsName p.name) (h : IsEnd rest) :
    (Script.template (addressTemplate r)).IsAt ('`' :: (Client.address r ++ '`' :: rest)) rest := by
  have hplain : ∀ c ∈ "/api/".toList ++ r.name, isLiteral c = true := by
    intro c hc
    rcases List.mem_append.mp hc with hc | hc
    · exact List.all_eq_true.mp (by decide : "/api/".toList.all isLiteral = true) c hc
    · exact isLiteral_of_valid hname c hc
  rw [address_text, List.append_assoc]
  exact Script.isAt_template (Template.isAt_behind hplain (isAt_query hparams rfl)) h

end Parts

end Pagewright.Wire
