import Pagewright.Entry
import Pagewright.Proofs.Json.Quoting
import Pagewright.Proofs.Number.Reading
import Pagewright.Proofs.Text.Pieces

namespace Pagewright.Json

theorem not_mem_escapeChar (c : Char) : '\n' ∉ escapeChar c := by
  rcases escapeChar_cases c with ⟨e, he, hc, -⟩ | ⟨hc, he⟩ | ⟨-, -, hc, he⟩
  · have hne : e ≠ '\n' := by
      rintro rfl
      cases hc
    simp [he, hne.symm]
  · have hall : ∀ n < 16, hexDigit n ≠ '\n' := by decide
    have hhigh := hall (c.toNat / 16) (by omega)
    have hlow := hall (c.toNat % 16) (by omega)
    simp [he, hhigh.symm, hlow.symm]
  · have hne : c ≠ '\n' := by
      rintro rfl
      exact hc (by decide)
    simp [he, hne.symm]

theorem not_mem_quote (t : Text) : '\n' ∉ quote t := by
  simp [quote, not_mem_escapeChar]

theorem not_mem_scriptKey (key : Text) : '\n' ∉ scriptKey key := by
  unfold scriptKey
  split
  · exact not_mem_quote []
  · split
    · rename_i c cs hname
      intro hm
      have hpart : isNameStart '\n' = true ∨ isNamePart '\n' = true := by
        rw [Bool.and_eq_true, List.all_eq_true] at hname
        rcases List.mem_cons.mp hm with rfl | hm
        · exact .inl hname.1
        · exact .inr (hname.2 _ hm)
      exact absurd hpart (by decide)
    · exact not_mem_quote _

theorem not_mem_inScript (t : Text) : '\n' ∉ inScript t := by
  fun_induction inScript t with
  | case1 => simp
  | case2 cs ih => simpa using ih
  | case3 c cs _ ih => simpa [not_mem_escapeChar] using ih

theorem not_mem_numeral {t : Text} (h : ∀ c ∈ t, Number.isNumeral c = true) : '\n' ∉ t :=
  fun hm => absurd (h _ hm) (by decide)

mutual

/-- A literal has no line feed, whatever texts and keys are in it. -/
theorem not_mem_script (v : Json) : '\n' ∉ script v := by
  cases v with
  | null => decide
  | bool b => cases b <;> decide
  | int n => exact not_mem_numeral fun _ => Number.ofInt_isNumeral
  | real x => exact not_mem_numeral fun _ => Number.Format.render_isNumeral
  | string t => simp [script_string, not_mem_inScript]
  | array items => simpa [script] using not_mem_itemsScript items
  | object entries => simpa [script] using not_mem_entriesScript entries

theorem not_mem_itemsScript (vs : List Json) : '\n' ∉ itemsScript vs := by
  match vs with
  | [] => simp [itemsScript]
  | [v] => simpa [itemsScript] using not_mem_script v
  | v :: w :: vs =>
    have hv := not_mem_script v
    have hlater := not_mem_itemsScript (w :: vs)
    simp [itemsScript, hv, hlater]

theorem not_mem_entriesScript (es : List (Text × Json)) : '\n' ∉ entriesScript es := by
  match es with
  | [] => simp [entriesScript]
  | [(k, v)] => simp [entriesScript, not_mem_scriptKey, not_mem_script v]
  | (k, v) :: e :: es =>
    have hv := not_mem_script v
    have hlater := not_mem_entriesScript (e :: es)
    simp [entriesScript, not_mem_scriptKey, hv, hlater]

end

theorem not_mem_entryScript (entry : Text × Json) : '\n' ∉ entryScript entry := by
  simp [entryScript, not_mem_scriptKey, not_mem_script]

end Pagewright.Json

namespace Pagewright.Entry

open Text

def slashed (component : Text) : Text :=
  replace component "\\" "/"

/-- What stands before the first single quote that no backslash precedes, and what follows that
quote, in a text behind the character `before`. -/
def upToQuote (before : Char) : Text → Option (Text × Text)
  | [] => none
  | c :: t =>
    if c = '\'' ∧ before ≠ '\\' then some ([], t)
    else (upToQuote c t).map fun (s, rest) => (c :: s, rest)

def unquoted (t : Text) : Text :=
  replace t "\\'" "'"

/-- The lines that the entries of the props stand on; without props one line is blank. -/
def propRows : List Text → List Text
  | [] => ["      "]
  | [e] => ["      " ++ e]
  | e :: e' :: es => ("      " ++ e ++ ",") :: propRows (e' :: es)

def linesAbove : List Text :=
  [";", "", "const app = new App(\x7b", "    target: document.body,", "    props: \x7b"]

def linesBelow : List Text :=
  ["    \x7d", "\x7d);", "", "export default app;"]

def frame (entries : List Text) : List Text :=
  linesAbove ++ propRows entries ++ linesBelow

def rowEntries : List Text → List Text
  | [] => []
  | [row] => if (row.drop 6).isEmpty then [] else [row.drop 6]
  | row :: row' :: rows => (row.drop 6).dropLast :: rowEntries (row' :: rows)

def read? (t : Text) : Option (Text × List Text) := do
  let t ← "import App from '".toList.isPrefixOf? t
  let (path, rest) ← upToQuote '\'' t
  let lines := pieces '\n' rest
  return (unquoted path, rowEntries ((lines.drop 5).take (lines.length - 9)))

section

def quotedChar (c : Char) : Text :=
  if c = '\'' then "\\'" else [c]

theorem specifier_eq (component : Text) :
    specifier component = (slashed component).flatMap quotedChar :=
  replace_single _

theorem not_mem_slashed (component : Text) : '\\' ∉ slashed component := by
  rw [slashed, show replace component "\\" "/" =
    component.flatMap fun c => if c = '\\' then ['/'] else [c] from replace_single component]
  intro hm
  obtain ⟨c, -, hc⟩ := List.mem_flatMap.mp hm
  split at hc
  · simp at hc
  · rename_i hne
    exact hne (List.mem_singleton.mp hc).symm

variable {t : Text}

/-- Every quote in the path is escaped, and no backslash stands before the quote that ends it. -/
theorem upToQuote_quoted (ht : '\\' ∉ t) {before : Char} (hb : before ≠ '\\') (rest : Text) :
    upToQuote before (t.flatMap quotedChar ++ '\'' :: rest) =
      some (t.flatMap quotedChar, rest) := by
  induction t generalizing before with
  | nil => exact if_pos ⟨rfl, hb⟩
  | cons c cs ih =>
    obtain ⟨hc, hcs⟩ := not_or.mp (mt List.mem_cons.mpr ht)
    by_cases hq : c = '\''
    · subst c
      have hlater := ih hcs (show '\'' ≠ '\\' by decide)
      have htext : (('\'' :: cs).flatMap quotedChar) ++ '\'' :: rest =
          '\\' :: '\'' :: (cs.flatMap quotedChar ++ '\'' :: rest) := rfl
      rw [htext, upToQuote, if_neg (by simp), upToQuote, if_neg (by simp), hlater]
      rfl
    · have hlater := ih hcs (Ne.symm hc)
      rw [List.flatMap_cons, quotedChar, if_neg hq, List.singleton_append, List.cons_append,
        upToQuote, if_neg (fun h => hq h.1), hlater]
      rfl

theorem unquoted_quoted (ht : '\\' ∉ t) : unquoted (t.flatMap quotedChar) = t := by
  induction t with
  | nil => rfl
  | cons c cs ih =>
    obtain ⟨hc, hcs⟩ := not_or.mp (mt List.mem_cons.mpr ht)
    rw [List.flatMap_cons]
    by_cases hq : c = '\''
    · subst c
      exact (replace_target _).trans (congrArg ('\'' :: ·) (ih hcs))
    · have hne : ¬['\\', '\''] <+: c :: cs.flatMap quotedChar :=
        fun hp => hc (List.cons_prefix_cons.mp hp).1
      rw [quotedChar, if_neg hq, List.singleton_append]
      exact (replace_other hne).trans (congrArg (c :: ·) (ih hcs))

end

section

variable {es : List Text}

/-- The joined entries are the lines of the props, as long as no entry has a line feed. -/
theorem pieces_joined (h : ∀ e ∈ es, '\n' ∉ e) :
    pieces '\n' ("      ".toList ++ join ",\n      " es) = propRows es := by
  induction es with
  | nil => rfl
  | cons e es ih =>
    have he : '\n' ∉ "      ".toList ++ e := by
      simpa using h e (by simp)
    cases es with
    | nil => simpa [join, propRows] using pieces_one he
    | cons e' es =>
      have hlater := ih fun x hx => h x (by simp [hx])
      have hrow : '\n' ∉ "      ".toList ++ e ++ ",".toList := by
        simpa using he
      have htext : "      ".toList ++ join ",\n      " (e :: e' :: es) =
          "      ".toList ++ e ++ ",".toList ++ '\n' :: ("      ".toList ++
            join ",\n      " (e' :: es)) := by
        simp only [join, List.intercalate_cons_cons, List.append_assoc]
        rfl
      rw [htext, pieces_append, pieces_one hrow, hlater]
      rfl

/-- Entries are read back from their rows. -/
theorem rowEntries_propRows (h : ∀ e ∈ es, e ≠ []) : rowEntries (propRows es) = es := by
  have hdrop (e : Text) : ("      ".toList ++ e).drop 6 = e := rfl
  induction es with
  | nil => rfl
  | cons e es ih =>
    cases es with
    | nil =>
      have he : e.isEmpty = false := by simpa using h e (by simp)
      rw [propRows, rowEntries, hdrop, he]
      rfl
    | cons e' es =>
      obtain ⟨row, rows, hrows⟩ : ∃ row rows, propRows (e' :: es) = row :: rows := by
        cases es <;> exact ⟨_, _, rfl⟩
      have hlater := ih fun x hx => h x (by simp [hx])
      rw [hrows] at hlater
      rw [propRows, hrows, rowEntries, hlater, List.append_assoc, hdrop]
      simp

end

def behindPath (props : List (Text × Json)) : Text :=
  join "\n" linesAbove ++ '\n' :: ("      " ++ propLines props ++ '\n' :: join "\n" linesBelow)

/-- Behind the path, every entry is on a line of its own inside the frame. -/
theorem pieces_behindPath (props : List (Text × Json)) :
    pieces '\n' (behindPath props) = frame (props.map Json.entryScript) := by
  have hentries : ∀ e ∈ props.map Json.entryScript, '\n' ∉ e := by
    intro e he
    obtain ⟨p, -, rfl⟩ := List.mem_map.mp he
    exact Json.not_mem_entryScript p
  have habove : pieces '\n' (join "\n" linesAbove) = linesAbove := by
    decide +kernel
  have hbelow : pieces '\n' (join "\n" linesBelow) = linesBelow := by
    decide +kernel
  rw [behindPath, pieces_append, pieces_append, propLines, pieces_joined hentries, habove, hbelow,
    frame, List.append_assoc]

theorem render_eq (component : Text) (props : List (Text × Json)) :
    render component props = "import App from '".toList ++ ((slashed component).flatMap quotedChar
      ++ '\'' :: behindPath props) := by
  have habove : "';

const app = new App(\x7b
    target: document.body,
    props: \x7b
      ".toList = '\'' :: (join "\n" linesAbove ++ '\n' :: "      ".toList) := by
    decide +kernel
  have hbelow : "
    \x7d
\x7d);

export default app;".toList = '\n' :: join "\n" linesBelow := by
    decide +kernel
  -- The literals go first: unfolding them costs far more than their equation.
  unfold render
  simp only [habove, hbelow, specifier_eq, behindPath, List.append_assoc, List.cons_append]

theorem entryScript_ne_nil (p : Text × Json) : Json.entryScript p ≠ [] := by
  simp [Json.entryScript]

/-- The path and the entries are read back. -/
theorem read?_render (component : Text) (props : List (Text × Json)) :
    read? (render component props) = some (slashed component, props.map Json.entryScript) := by
  have hprefix : ∀ t : Text, "import App from '".toList.isPrefixOf?
      ("import App from '".toList ++ t) = some t := fun t => rfl
  have hslash := not_mem_slashed component
  have hrows : ((frame (props.map Json.entryScript)).drop 5).take
      ((frame (props.map Json.entryScript)).length - 9) = propRows (props.map Json.entryScript) := by
    simp [frame, linesAbove, linesBelow]
  have hentries : ∀ e ∈ props.map Json.entryScript, e ≠ [] := by
    intro e he
    obtain ⟨p, -, rfl⟩ := List.mem_map.mp he
    exact entryScript_ne_nil p
  simp only [read?, render_eq, hprefix, bind, Option.bind,
    upToQuote_quoted hslash (show '\'' ≠ '\\' by decide), pieces_behindPath, hrows,
    unquoted_quoted hslash, rowEntries_propRows hentries]
  rfl

end Pagewright.Entry
