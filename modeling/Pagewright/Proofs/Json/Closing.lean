import Pagewright.Entry
import Pagewright.Proofs.Json.Quoting
import Pagewright.Proofs.Number.Reading

namespace Pagewright.Json

open Text

mutual

def keys : Json → List Text
  | .array items => itemsKeys items
  | .object entries => entriesKeys entries
  | _ => []

def itemsKeys : List Json → List Text
  | [] => []
  | v :: vs => keys v ++ itemsKeys vs

def entriesKeys : List (Text × Json) → List Text
  | [] => []
  | (k, v) :: es => k :: (keys v ++ entriesKeys es)

end

/-- Quotes neither bring the two characters about nor break them up. -/
theorem closes_quote (t : Text) : Closes (quote t) ↔ Closes t := by
  rw [quote, List.cons_append, closes_cons_of_ne (by decide),
    closes_append_cons (by decide) (by decide), escapeChar_spares.closes_flatMap]
  simp

theorem closes_scriptKey (k : Text) : Closes (scriptKey k) ↔ Closes k := by
  unfold scriptKey
  split
  · exact closes_quote []
  · split
    · rfl
    · exact closes_quote _

theorem not_closes_string (t : Text) : ¬Closes (script (.string t)) := by
  rw [script]
  exact not_closes_replace _

theorem not_closes_numeral {t : Text} (h : ∀ c ∈ t, Number.isNumeral c = true) : ¬Closes t :=
  not_closes_of_not_mem fun hl => absurd (h _ hl) (by decide)

theorem closes_entryScript (k : Text) (v : Json) :
    Closes (scriptKey k ++ ": " ++ script v) ↔ Closes k ∨ Closes (script v) := by
  have hsep : Parts ": " := by decide
  rw [hsep.closes_append, closes_scriptKey]

theorem closes_listed (s t : Text) : Closes (s ++ ", " ++ t) ↔ Closes s ∨ Closes t := by
  have hsep : Parts ", " := by decide
  exact hsep.closes_append

mutual

/-- A literal can close the script around it exactly if one of the keys in it can. -/
theorem closes_script (v : Json) : Closes (script v) ↔ ∃ k ∈ keys v, Closes k := by
  cases v with
  | null => decide
  | bool b => cases b <;> decide
  | int n =>
    have hn : ¬Closes (script (.int n)) := not_closes_numeral fun _ => Number.ofInt_isNumeral
    simp [keys, hn]
  | real x =>
    have hx : ¬Closes (script (.real x)) := not_closes_numeral fun _ =>
      Number.Format.render_isNumeral
    simp [keys, hx]
  | string t => simp [keys, not_closes_string t]
  | array items =>
    rw [script, keys, List.cons_append, closes_cons_of_ne (by decide),
      closes_append_cons (by decide) (by decide), closes_items items]
    simp
  | object entries =>
    rw [script, keys, List.cons_append, closes_cons_of_ne (by decide),
      closes_append_cons (by decide) (by decide), closes_entries entries]
    simp

theorem closes_items (vs : List Json) :
    Closes (itemsScript vs) ↔ ∃ k ∈ itemsKeys vs, Closes k := by
  match vs with
  | [] => simp [itemsScript, itemsKeys]
  | [v] =>
    rw [itemsScript, closes_script v]
    simp [itemsKeys]
  | v :: w :: vs =>
    have hrest := closes_items (w :: vs)
    rw [itemsScript, closes_listed, hrest, closes_script v, itemsKeys.eq_2 v]
    simp only [List.mem_append, or_and_right, exists_or]

theorem closes_entries (es : List (Text × Json)) :
    Closes (entriesScript es) ↔ ∃ k ∈ entriesKeys es, Closes k := by
  match es with
  | [] => simp [entriesScript, entriesKeys]
  | [(k, v)] =>
    rw [entriesScript, closes_entryScript k v, closes_script v]
    simp [entriesKeys]
  | (k, v) :: e :: es =>
    have hrest := closes_entries (e :: es)
    rw [entriesScript, closes_listed, hrest, closes_entryScript k v, closes_script v,
      entriesKeys.eq_2 k]
    simp only [List.mem_cons, List.mem_append, or_and_right, exists_or, exists_eq_left, or_assoc]

end

end Pagewright.Json

namespace Pagewright.Entry

open Text

/-- A backslash that becomes a slash can stand after `<`. -/
theorem closes_slashed (t : Text) :
    Closes (replace t "\\" "/") ↔ Closes t ∨ ['<', '\\'] <:+: t := by
  rw [show replace t "\\" "/" = t.flatMap fun d => if d = '\\' then ['/'] else [d] from
    replace_single t]
  induction t with
  | nil => simp
  | cons c t ih =>
    have hhead : (t.flatMap fun d => if d = '\\' then ['/'] else [d]).head? = some '/' ↔
        t.head? = some '/' ∨ t.head? = some '\\' := by
      cases t with
      | nil => simp
      | cons d t => by_cases hd : d = '\\' <;> simp [hd]
    rw [List.flatMap_cons, closes_cons, pair_infix_cons]
    by_cases hc : c = '\\'
    · simp [hc, ih]
    · rw [if_neg hc, List.singleton_append, closes_cons, hhead, ih]
      simp only [and_or_left, or_assoc, or_left_comm]

/-- The quotes in a component path come from nowhere but themselves, and its backslashes become
slashes. -/
theorem closes_specifier (component : Text) :
    Closes (specifier component) ↔ Closes component ∨ ['<', '\\'] <:+: component := by
  have hquotes : Spares fun d => if d = '\'' then "\\'".toList else [d] := by
    intro c
    by_cases hc : c = '\''
    · rw [hc]
      exact .inr (by decide)
    · exact .inl (if_neg hc)
  have hsingle : specifier component =
      (replace component "\\" "/").flatMap fun d => if d = '\'' then "\\'".toList else [d] :=
    replace_single _
  rw [hsingle, hquotes.closes_flatMap, closes_slashed]

/-- The keys of props, at every depth. -/
theorem closes_propLines (props : List (Text × Json)) :
    Closes (propLines props) ↔ ∃ k ∈ Json.entriesKeys props, Closes k := by
  have hkeys : ∀ es : List (Text × Json),
      (∃ t ∈ es.map Json.entryScript, Closes t) ↔ ∃ k ∈ Json.entriesKeys es, Closes k := by
    intro es
    induction es with
    | nil => simp [Json.entriesKeys]
    | cons e es ih =>
      obtain ⟨k, v⟩ := e
      have hentry : Closes (Json.entryScript (k, v)) ↔
          Closes k ∨ ∃ k' ∈ Json.keys v, Closes k' := by
        rw [Json.entryScript, Json.closes_entryScript k v, Json.closes_script v]
      rw [List.map_cons, Json.entriesKeys.eq_2 k]
      simp only [List.mem_cons, List.mem_append, or_and_right, exists_or, exists_eq_left, ih,
        hentry, or_assoc]
  have hsep : Parts ",\n      " := by simp [Parts]
  rw [propLines, hsep.closes_join]
  exact hkeys props

/-- The entry text can close the script around it exactly if its component path can, as it is or
with its backslashes as slashes, or a key of the props at some depth. -/
theorem closes_render (component : Text) (props : List (Text × Json)) :
    Closes (render component props) ↔
      (Closes component ∨ ['<', '\\'] <:+: component) ∨
        ∃ k ∈ Json.entriesKeys props, Closes k := by
  have hbefore : ∀ t, Closes ("import App from '" ++ t) ↔ Closes t := by
    intro t
    rw [closes_append_of_getLast? (by simp)]
    exact or_iff_right (by simp)
  have hbetween : Parts
      "';\n\nconst app = new App(\x7b\n    target: document.body,\n    props: \x7b\n      " := by
    simp [Parts]
  have hafter : ∀ t, Closes (t ++ "\n    \x7d\n\x7d);\n\nexport default app;") ↔ Closes t := by
    intro t
    rw [closes_append_of_head? (by simp)]
    exact or_iff_left (by simp)
  unfold render
  rw [hafter, hbetween.closes_append, hbefore, closes_specifier, closes_propLines]

/-- A literal closes the script around it exactly if a key in it does; what props contribute to the
entry text is exactly their keys, whatever the values are. -/
theorem closes_exactly_by_keys (v : Json) (component : Text) (props : List (Text × Json)) :
    (Closes (Json.script v) ↔ ∃ k ∈ Json.keys v, Closes k) ∧
      (Closes (render component props) ↔
        (Closes component ∨ ['<', '\\'] <:+: component) ∨
          ∃ k ∈ Json.entriesKeys props, Closes k) :=
  ⟨Json.closes_script v, closes_render component props⟩

theorem key_closes :
    Closes (Json.script (.object [("</script>", .int 1)])) ∧
      ¬Closes "./src/App.svelte" ∧
      Closes (render "./src/App.svelte" [("</script>", .int 1)]) := by
  decide +kernel

end Pagewright.Entry
