import Pagewright.Proofs.Json.Quoting
import Pagewright.Proofs.Lexing.Lexeme
import Pagewright.Proofs.Number.Reading

namespace Pagewright.Json

open Syntax

def startsWord (c : Char) : Bool :=
  Identifier.isStart c || c = '$'

def continuesWord (c : Char) : Bool :=
  Identifier.isPart c || c = '$'

/-- The characters of a number, of `true`, of `false` and of `null`. -/
def isScalarPart (c : Char) : Bool :=
  continuesWord c || c = '-'

def scalar? (word : Text) : Option Json :=
  if word = "null" then some .null
  else if word = "true" then some (.bool true)
  else if word = "false" then some (.bool false)
  else (Number.whole? word).map .int

def readScalar (t : Text) : Option (Json × Text) :=
  (scalar? (t.takeWhile isScalarPart)).map fun v => (v, t.dropWhile isScalarPart)

/-- The key of an entry, a text in quotes or a bare word, and what follows it. -/
def readKey : Text → Option (Text × Text)
  | [] => none
  | c :: t =>
    if c = '"' then readString (t.length + 1) t
    else if startsWord c then
      some ((c :: t).takeWhile continuesWord, (c :: t).dropWhile continuesWord)
    else none

mutual

def readLiteral : Nat → Text → Option (Json × Text)
  | 0, _ => none
  | _ + 1, [] => none
  | n + 1, c :: t =>
    if c = '{' then
      if t.head? = some '}' then some (.object [], t.drop 1)
      else (readMembers n t).map fun (es, t) => (.object es, t)
    else if c = '[' then
      if t.head? = some ']' then some (.array [], t.drop 1)
      else (readElements n t).map fun (vs, t) => (.array vs, t)
    else if c = '"' then (readString (t.length + 1) t).map fun (s, t) => (.string s, t)
    else readScalar (c :: t)

/-- The elements up to a closing bracket. Blanks may follow a comma. -/
def readElements : Nat → Text → Option (List Json × Text)
  | 0, _ => none
  | n + 1, t => do
    let (v, t) ← readLiteral n t
    match t with
    | ']' :: t => some ([v], t)
    | ',' :: t =>
      let (vs, t) ← readElements n (skipBlanks t)
      some (v :: vs, t)
    | _ => none

/-- The entries up to a closing brace. Blanks may follow a colon or a comma. -/
def readMembers : Nat → Text → Option (List (Text × Json) × Text)
  | 0, _ => none
  | n + 1, t => do
    let (k, t) ← readKey t
    match t with
    | ':' :: t =>
      let (v, t) ← readLiteral n (skipBlanks t)
      match t with
      | '}' :: t => some ([(k, v)], t)
      | ',' :: t =>
        let (es, t) ← readMembers n (skipBlanks t)
        some ((k, v) :: es, t)
      | _ => none
    | _ => none

end

def literal? (t : Text) : Option Json := do
  let (v, rest) ← readLiteral (t.length + 1) t
  guard rest.isEmpty
  return v

mutual

def isWhole : Json → Bool
  | .real _ => false
  | .array items => itemsWhole items
  | .object entries => entriesWhole entries
  | _ => true

def itemsWhole : List Json → Bool
  | [] => true
  | v :: vs => isWhole v && itemsWhole vs

def entriesWhole : List (Text × Json) → Bool
  | [] => true
  | (_, v) :: es => isWhole v && entriesWhole es

end

/-- A character of a kind is none that is not. -/
theorem ne_of_kind {p : Char → Bool} {c d : Char} (hc : p c = true) (hd : p d = false) :
    c ≠ d := by
  intro h
  rw [← h, hc] at hd
  cases hd

/-- Whether a number or a word that a text follows ends before it. -/
def EndsScalar (rest : Text) : Prop :=
  ∀ c ∈ rest.head?, isScalarPart c = false

theorem endsScalar_cons {c : Char} (h : isScalarPart c = false) (t : Text) :
    EndsScalar (c :: t) := by
  intro d hd
  rwa [← Option.mem_some_iff.mp hd]

theorem isScalarPart_digit {c : Char} (h : c.isDigit = true) : isScalarPart c = true := by
  simp [isScalarPart, continuesWord, isDigit_part h]

theorem ofInt_isScalarPart {n : Int} {c : Char} (h : c ∈ Text.ofInt n) :
    isScalarPart c = true := by
  cases Number.mem_ofInt h with
  | inl h =>
    rw [h]
    decide
  | inr h => exact isScalarPart_digit h

/-- A scalar is read back from its text. -/
theorem readScalar_of_scalar {word rest : Text} {v : Json} (hv : scalar? word = some v)
    (hw : ∀ c ∈ word, isScalarPart c = true) (hr : EndsScalar rest) :
    readScalar (word ++ rest) = some (v, rest) := by
  obtain ⟨htake, hdrop⟩ := Text.IsRun.takeWhile_eq ⟨hw, hr⟩
  rw [readScalar, htake, hdrop, hv]
  rfl

theorem scalar?_ofInt (n : Int) : scalar? (Text.ofInt n) = some (.int n) := by
  have hne : ∀ {t : Text}, Number.whole? t = none → Text.ofInt n ≠ t := by
    intro t ht hn
    rw [← hn, Number.whole?_ofInt] at ht
    cases ht
  rw [scalar?, if_neg (hne (by decide)), if_neg (hne (by decide)), if_neg (hne (by decide)),
    Number.whole?_ofInt]
  rfl

def isWord : Json → Bool
  | .null | .bool _ | .int _ => true
  | _ => false

theorem scalar?_script {v : Json} (h : isWord v = true) : scalar? (script v) = some v := by
  cases v with
  | null => rfl
  | bool b => cases b <;> rfl
  | int n => exact scalar?_ofInt n
  | real | string | array | object => cases h

theorem script_isScalarPart {v : Json} (h : isWord v = true) {c : Char} (hc : c ∈ script v) :
    isScalarPart c = true := by
  have hword : ∀ {w : Text}, w.all isScalarPart = true → c ∈ w → isScalarPart c = true :=
    fun hw hm => List.all_eq_true.mp hw c hm
  cases v with
  | null => exact hword (by decide) hc
  | bool b =>
    cases b with
    | false => exact hword (by decide) hc
    | true => exact hword (by decide) hc
  | int n => exact ofInt_isScalarPart hc
  | real | string | array | object => cases h

theorem script_word_ne_nil {v : Json} (h : isWord v = true) : script v ≠ [] := by
  intro hnil
  have hs := scalar?_script h
  rw [hnil] at hs
  cases hs

def opensItem (c : Char) : Bool :=
  c = '[' || c = '{' || c = '"' || isScalarPart c

def Opens (t : Text) : Prop :=
  ∃ c cs, t = c :: cs ∧ opensItem c = true

theorem opensItem_of_isScalarPart {c : Char} (h : isScalarPart c = true) : opensItem c = true := by
  simp [opensItem, h]

/-- The literal of a value starts with a character that a value can start with. -/
theorem script_opens {v : Json} (h : isWhole v = true) : Opens (script v) := by
  have hword : isWord v = true → Opens (script v) := by
    intro hw
    obtain ⟨c, t, ht⟩ := List.exists_cons_of_ne_nil (script_word_ne_nil hw)
    exact ⟨c, t, ht, opensItem_of_isScalarPart (script_isScalarPart hw (by simp [ht]))⟩
  cases v with
  | null => exact hword rfl
  | bool b => exact hword rfl
  | int n => exact hword rfl
  | real x => cases h
  | string t => exact ⟨_, _, script_string t, by decide⟩
  | array items => exact ⟨_, _, rfl, by decide⟩
  | object entries => exact ⟨_, _, rfl, by decide⟩

/-- A word is read back where it ends. -/
theorem readLiteral_word {v : Json} (h : isWord v = true) {rest : Text} (hr : EndsScalar rest)
    (n : Nat) : readLiteral (n + 1) (script v ++ rest) = some (v, rest) := by
  obtain ⟨c, t, ht⟩ := List.exists_cons_of_ne_nil (script_word_ne_nil h)
  have hread := readScalar_of_scalar (scalar?_script h) (fun _ => script_isScalarPart h) hr
  have hc : isScalarPart c = true := script_isScalarPart h (by simp [ht])
  have hne : ∀ {d : Char}, isScalarPart d = false → c ≠ d := ne_of_kind hc
  rw [ht, List.cons_append] at hread ⊢
  rw [readLiteral, if_neg (hne (by decide)), if_neg (hne (by decide)), if_neg (hne (by decide)),
    hread]

/-- A text is read back from its literal, whatever follows. -/
theorem readLiteral_string (t rest : Text) (n : Nat) :
    readLiteral (n + 1) (script (.string t) ++ rest) = some (.string t, rest) := by
  have hlen : t.length ≤ (inScript t).length := length_le_inScript t
  have htext : script (.string t) ++ rest = '"' :: (inScript t ++ '"' :: rest) := by
    rw [script_string, List.cons_append, List.cons_append, List.append_assoc]
    rfl
  have hread : readString ((inScript t ++ '"' :: rest).length + 1) (inScript t ++ '"' :: rest) =
      some (t, rest) := by
    refine readString_inScript ?_ rest
    rw [List.length_append]
    omega
  rw [htext, readLiteral, if_neg (by decide), if_neg (by decide), if_pos rfl, hread]
  rfl

theorem toNat_of_isAlphanum {c : Char} (h : c.isAlphanum = true) : c.toNat < 128 := by
  have hz : c.val ≤ 'z'.val := by
    rcases (Bool.or_eq_true _ _).mp h with h | h
    · rcases (Bool.or_eq_true _ _).mp h with h | h
      · have hupper : c.val ≥ 'A'.val ∧ c.val ≤ 'Z'.val := of_decide_eq_true h
        exact UInt32.le_trans hupper.2 (by decide)
      · exact of_decide_eq_true ((Bool.and_eq_true _ _).mp h).2
    · have hnine : c.val ≤ '9'.val := of_decide_eq_true ((Bool.and_eq_true _ _).mp h).2
      exact UInt32.le_trans hnine (by decide)
  exact Nat.lt_of_le_of_lt (UInt32.le_iff_toNat_le.mp hz) (by decide)

/-- The names of keys are words of a script. -/
theorem startsWord_of_isNameStart {c : Char} (h : isNameStart c = true) : startsWord c = true := by
  simp only [isNameStart, Bool.or_eq_true, decide_eq_true_eq] at h
  rcases h with (h | rfl) | rfl
  · have hlt : c.toNat < 128 := toNat_of_isAlphanum (by simp [Char.isAlphanum, h])
    simp [startsWord, Identifier.isStart, hlt, h]
  · decide
  · decide

theorem continuesWord_of_isNamePart {c : Char} (h : isNamePart c = true) :
    continuesWord c = true := by
  simp only [isNamePart, Bool.or_eq_true, decide_eq_true_eq] at h
  rcases h with (h | rfl) | rfl
  · simp [continuesWord, Identifier.isPart, toNat_of_isAlphanum h, h]
  · decide
  · decide

theorem isNamePart_of_isNameStart {c : Char} (h : isNameStart c = true) :
    isNamePart c = true := by
  simp only [isNameStart, isNamePart, Bool.or_eq_true, decide_eq_true_eq] at h ⊢
  rcases h with (h | h) | h
  · simp [Char.isAlphanum, h]
  · simp [h]
  · simp [h]

theorem readKey_quote (k rest : Text) : readKey (quote k ++ rest) = some (k, rest) := by
  have htext : quote k ++ rest = '"' :: (k.flatMap escapeChar ++ '"' :: rest) := by
    simp [quote]
  have hlen := length_le_escaped k
  rw [htext, readKey, if_pos rfl]
  refine readString_quoted ?_ rest
  rw [List.length_append]
  omega

/-- A key is read back, bare or in quotes, up to the colon after it. -/
theorem readKey_scriptKey (k rest : Text) :
    readKey (scriptKey k ++ ':' :: rest) = some (k, ':' :: rest) := by
  unfold scriptKey
  split
  · exact readKey_quote [] _
  · rename_i c cs
    split
    · rename_i hname
      obtain ⟨hc, hcs⟩ := (Bool.and_eq_true _ _).mp hname
      have hword : ∀ d ∈ c :: cs, continuesWord d = true := by
        intro d hd
        cases hd with
        | head => exact continuesWord_of_isNamePart (isNamePart_of_isNameStart hc)
        | tail _ hd => exact continuesWord_of_isNamePart (List.all_eq_true.mp hcs d hd)
      have hcolon : ∀ d ∈ (':' :: rest).head?, continuesWord d = false := by
        intro d hd
        rw [← Option.mem_some_iff.mp hd]
        decide
      have hstart : startsWord c = true := startsWord_of_isNameStart hc
      have hq : c ≠ '"' := ne_of_kind hstart (by decide)
      obtain ⟨htake, hdrop⟩ := Text.IsRun.takeWhile_eq ⟨hword, hcolon⟩
      rw [List.cons_append] at htake hdrop ⊢
      rw [readKey, if_neg hq, if_pos hstart, htake, hdrop]
    · exact readKey_quote _ _

theorem endsScalar_mark {c : Char} (h : c ∈ [',', ']', '}']) (t : Text) : EndsScalar (c :: t) := by
  have hall : [',', ']', '}'].all (fun d => !isScalarPart d) = true := by decide
  have hc := List.all_eq_true.mp hall c h
  exact endsScalar_cons (by simpa using hc) t

theorem scriptKey_opens (k : Text) : Opens (scriptKey k) := by
  unfold scriptKey
  split
  · exact ⟨_, _, rfl, by decide⟩
  · rename_i c cs
    split
    · rename_i hname
      have hc : isNameStart c = true := ((Bool.and_eq_true _ _).mp hname).1
      have hpart := continuesWord_of_isNamePart (isNamePart_of_isNameStart hc)
      exact ⟨c, cs, rfl, opensItem_of_isScalarPart (by simp [isScalarPart, hpart])⟩
    · exact ⟨_, _, rfl, by decide⟩

/-- Only the blank after a comma or a colon is passed over. -/
theorem Opens.skipBlanks {t : Text} (h : Opens t) (u : Text) :
    Json.skipBlanks (' ' :: (t ++ u)) = t ++ u := by
  obtain ⟨c, cs, rfl, hc⟩ := h
  have hne : ∀ d ∈ [' ', '\n', '\r', '\t'], c ≠ d := by
    intro d hd
    have hall : [' ', '\n', '\r', '\t'].all (fun d => !opensItem d) = true := by decide
    have hblank := List.all_eq_true.mp hall d hd
    exact ne_of_kind hc (by simpa using hblank)
  simp only [List.mem_cons, List.not_mem_nil, or_false, forall_eq_or_imp, forall_eq] at hne
  simp [Json.skipBlanks, hne]

theorem Opens.head?_ne {t : Text} (h : Opens t) {d : Char} (hd : opensItem d = false) (u : Text) :
    (t ++ u).head? ≠ some d := by
  obtain ⟨c, cs, rfl, hc⟩ := h
  simpa using ne_of_kind hc hd

theorem Opens.append {t : Text} (h : Opens t) (u : Text) : Opens (t ++ u) := by
  obtain ⟨c, cs, rfl, hc⟩ := h
  exact ⟨c, cs ++ u, rfl, hc⟩

theorem itemsScript_opens {v : Json} (h : isWhole v = true) (vs : List Json) :
    Opens (itemsScript (v :: vs)) := by
  cases vs with
  | nil => exact script_opens h
  | cons w vs => exact ((script_opens h).append _).append _

theorem entriesScript_opens (k : Text) (v : Json) (es : List (Text × Json)) :
    Opens (entriesScript ((k, v) :: es)) := by
  have hentry : Opens (scriptKey k ++ ": " ++ script v) := ((scriptKey_opens k).append _).append _
  cases es with
  | nil => exact hentry
  | cons e es => exact (hentry.append _).append _

/-- An array is read back once its elements are. -/
theorem readLiteral_array {vs : List Json} (h : itemsWhole vs = true) {n : Nat} {rest : Text}
    (hread : vs ≠ [] → readElements n (itemsScript vs ++ ']' :: rest) = some (vs, rest)) :
    readLiteral (n + 1) (script (.array vs) ++ rest) = some (.array vs, rest) := by
  have htext : script (.array vs) ++ rest = '[' :: (itemsScript vs ++ ']' :: rest) := by
    simp [script]
  rw [htext, readLiteral, if_neg (by decide), if_pos rfl]
  cases vs with
  | nil => rfl
  | cons v vs =>
    have hv : isWhole v = true := ((Bool.and_eq_true _ _).mp h).1
    rw [if_neg ((itemsScript_opens hv vs).head?_ne (by decide) _), hread (List.cons_ne_nil v vs)]
    rfl

/-- An object is read back once its entries are. -/
theorem readLiteral_object {es : List (Text × Json)} {n : Nat} {rest : Text}
    (hread : es ≠ [] → readMembers n (entriesScript es ++ '}' :: rest) = some (es, rest)) :
    readLiteral (n + 1) (script (.object es) ++ rest) = some (.object es, rest) := by
  have htext : script (.object es) ++ rest = '{' :: (entriesScript es ++ '}' :: rest) := by
    simp [script]
  rw [htext, readLiteral, if_pos rfl]
  cases es with
  | nil => rfl
  | cons e es =>
    rw [if_neg ((entriesScript_opens e.1 e.2 es).head?_ne (by decide) _),
      hread (List.cons_ne_nil e es)]
    rfl

theorem readElements_one {v : Json} {n : Nat} {rest : Text}
    (hv : readLiteral n (script v ++ ']' :: rest) = some (v, ']' :: rest)) :
    readElements (n + 1) (script v ++ ']' :: rest) = some ([v], rest) := by
  rw [readElements, hv]
  rfl

theorem readElements_more {v : Json} {vs : List Json} {n : Nat} {t rest : Text}
    (hv : readLiteral n (script v ++ ',' :: ' ' :: t) = some (v, ',' :: ' ' :: t))
    (ht : skipBlanks (' ' :: t) = t) (hvs : readElements n t = some (vs, rest)) :
    readElements (n + 1) (script v ++ ',' :: ' ' :: t) = some (v :: vs, rest) := by
  rw [readElements, hv]
  simp only [bind, Option.bind, ht, hvs]

theorem readMembers_one {k : Text} {v : Json} (h : isWhole v = true) {n : Nat} {rest : Text}
    (hv : readLiteral n (script v ++ '}' :: rest) = some (v, '}' :: rest)) :
    readMembers (n + 1) (scriptKey k ++ ':' :: ' ' :: (script v ++ '}' :: rest)) =
      some ([(k, v)], rest) := by
  rw [readMembers, readKey_scriptKey]
  simp only [bind, Option.bind, (script_opens h).skipBlanks, hv]

theorem readMembers_more {k : Text} {v : Json} (h : isWhole v = true)
    {es : List (Text × Json)} {n : Nat} {t rest : Text}
    (hv : readLiteral n (script v ++ ',' :: ' ' :: t) = some (v, ',' :: ' ' :: t))
    (ht : skipBlanks (' ' :: t) = t) (hes : readMembers n t = some (es, rest)) :
    readMembers (n + 1) (scriptKey k ++ ':' :: ' ' :: (script v ++ ',' :: ' ' :: t)) =
      some ((k, v) :: es, rest) := by
  rw [readMembers, readKey_scriptKey]
  simp only [bind, Option.bind, (script_opens h).skipBlanks, hv, ht, hes]

mutual

/-- A value is read back from its literal, whatever follows that does not go on with a number or
a word. -/
theorem readLiteral_script (v : Json) (h : isWhole v = true) {n : Nat} {rest : Text}
    (hn : (script v).length < n) (hr : EndsScalar rest) :
    readLiteral n (script v ++ rest) = some (v, rest) := by
  obtain ⟨n, rfl⟩ := Nat.exists_eq_succ_of_ne_zero (Nat.ne_of_gt (Nat.zero_lt_of_lt hn))
  cases v with
  | null => exact readLiteral_word rfl hr n
  | bool b => exact readLiteral_word rfl hr n
  | int i => exact readLiteral_word rfl hr n
  | real x => cases h
  | string t => exact readLiteral_string t rest n
  | array vs =>
    refine readLiteral_array h fun hne => readElements_items vs hne h ?_ rest
    simp only [script, List.length_append, List.length_cons, List.length_nil] at hn
    omega
  | object es =>
    refine readLiteral_object fun hne => readMembers_entries es hne h ?_ rest
    simp only [script, List.length_append, List.length_cons, List.length_nil] at hn
    omega

/-- Items are read back up to the bracket that closes them. -/
theorem readElements_items (vs : List Json) (hne : vs ≠ []) (h : itemsWhole vs = true) {n : Nat}
    (hn : (itemsScript vs).length + 1 < n) (rest : Text) :
    readElements n (itemsScript vs ++ ']' :: rest) = some (vs, rest) := by
  obtain ⟨n, rfl⟩ := Nat.exists_eq_succ_of_ne_zero (Nat.ne_of_gt (Nat.zero_lt_of_lt hn))
  match vs with
  | [] => exact absurd rfl hne
  | [v] =>
    obtain ⟨hv, -⟩ := (Bool.and_eq_true _ _).mp h
    exact readElements_one (readLiteral_script v hv (Nat.lt_of_succ_lt_succ hn)
      (endsScalar_mark (by simp) rest))
  | v :: w :: vs =>
    obtain ⟨hv, hvs⟩ := (Bool.and_eq_true _ _).mp h
    have hw : isWhole w = true := ((Bool.and_eq_true _ _).mp hvs).1
    have htext : itemsScript (v :: w :: vs) ++ ']' :: rest =
        script v ++ ',' :: ' ' :: (itemsScript (w :: vs) ++ ']' :: rest) := by
      simp [itemsScript]
    have hlen : (itemsScript (v :: w :: vs)).length =
        (script v).length + 2 + (itemsScript (w :: vs)).length := by
      simp [itemsScript]
      omega
    rw [htext]
    refine readElements_more (readLiteral_script v hv (by omega) (endsScalar_mark (by simp) _))
      ((itemsScript_opens hw vs).skipBlanks _) ?_
    exact readElements_items (w :: vs) (List.cons_ne_nil w vs) hvs (by omega) rest

/-- Entries are read back up to the brace that closes them. -/
theorem readMembers_entries (es : List (Text × Json)) (hne : es ≠ []) (h : entriesWhole es = true)
    {n : Nat} (hn : (entriesScript es).length + 1 < n) (rest : Text) :
    readMembers n (entriesScript es ++ '}' :: rest) = some (es, rest) := by
  obtain ⟨n, rfl⟩ := Nat.exists_eq_succ_of_ne_zero (Nat.ne_of_gt (Nat.zero_lt_of_lt hn))
  match es with
  | [] => exact absurd rfl hne
  | [(k, v)] =>
    obtain ⟨hv, -⟩ := (Bool.and_eq_true _ _).mp h
    have htext : entriesScript [(k, v)] ++ '}' :: rest =
        scriptKey k ++ ':' :: ' ' :: (script v ++ '}' :: rest) := by
      simp [entriesScript]
    have hlen : (entriesScript [(k, v)]).length =
        (scriptKey k).length + 2 + (script v).length := by
      simp [entriesScript]
      omega
    rw [htext]
    exact readMembers_one hv (readLiteral_script v hv (by omega) (endsScalar_mark (by simp) rest))
  | (k, v) :: (k', v') :: es =>
    obtain ⟨hv, hes⟩ := (Bool.and_eq_true _ _).mp h
    have htext : entriesScript ((k, v) :: (k', v') :: es) ++ '}' :: rest =
        scriptKey k ++ ':' :: ' ' ::
          (script v ++ ',' :: ' ' :: (entriesScript ((k', v') :: es) ++ '}' :: rest)) := by
      simp [entriesScript]
    have hlen : (entriesScript ((k, v) :: (k', v') :: es)).length =
        (scriptKey k).length + 2 + (script v).length + 2 +
          (entriesScript ((k', v') :: es)).length := by
      simp [entriesScript]
      omega
    rw [htext]
    refine readMembers_more hv (readLiteral_script v hv (by omega) (endsScalar_mark (by simp) _))
      ((entriesScript_opens k' v' es).skipBlanks _) ?_
    exact readMembers_entries ((k', v') :: es) (List.cons_ne_nil _ es) hes (by omega) rest

end

/-- Reading the literal of a value whose numbers are whole gives the value and leaves nothing; so
no other value has this literal. -/
theorem literal?_script (v : Json) (h : isWhole v = true) :
    literal? (script v) = some v ∧ ∀ w, isWhole w = true → script w = script v → w = v := by
  have hread : ∀ u, isWhole u = true → literal? (script u) = some u := by
    intro u hu
    have hends : EndsScalar [] := by
      intro c hc
      cases hc
    have hu := readLiteral_script u hu (Nat.lt_succ_self _) hends
    rw [List.append_nil] at hu
    rw [literal?, hu]
    rfl
  refine ⟨hread v h, ?_⟩
  intro w hw heq
  have hsame : some w = some v := by rw [← hread w hw, heq, hread v h]
  exact Option.some.inj hsame

/-- Quotes, a backslash, a control character and `</` in strings and keys, a bare key, an empty
array and an empty object. -/
def oddValue : Json :=
  .object
    [("_id", .int (-5)), ("</b>", .string "say \"hi\"\n</b>\\/<\\/"),
      ("", .array [.null, .bool true]),
      ("a b", .object [("", .array []), ("$", .object []), ("\u0001]", .string "\u0001,]")])]

theorem literal?_oddValue :
    isWhole oddValue = true ∧ literal? (script oddValue) = some oddValue ∧
      ∀ w, isWhole w = true → script w = script oddValue → w = oddValue :=
  ⟨by decide, literal?_script oddValue (by decide)⟩

end Pagewright.Json
