import Pagewright.Proofs.Names
import Pagewright.Proofs.Wire.Template

namespace Pagewright.Wire

open Syntax

structure Declaration where
  name : Text
  params : List Text
  constant : Text
  value : Script
  result : Script

/-- Names with commas between them, up to a closing bracket, which is passed over. -/
def readNames : Nat → Text → Option (List Text × Text)
  | 0, _ => none
  | n + 1, t => do
    let (id, t) ← word? t
    match t with
    | ')' :: t => return ([id], t)
    | ',' :: ' ' :: t =>
      let (ids, t) ← readNames n t
      return (id :: ids, t)
    | _ => none

def readParams : Text → Option (List Text × Text)
  | ')' :: t => some ([], t)
  | t => readNames t.length t

def readHeader (t : Text) : Option ((Text × List Text) × Text) := do
  let t ← afterMark "export function " t
  let (name, t) ← word? t
  let t ← afterMark "(" t
  let (params, t) ← readParams t
  return ((name, params), t)

def Declaration.read? (t : Text) : Option Declaration := do
  let ((name, params), t) ← readHeader t
  let t ← afterMark " \x7b\n    const " t
  let (constant, t) ← word? t
  let t ← afterMark " = " t
  let (value, t) ← readScript (2 * t.length) t
  let t ← afterMark "\n    return " t
  let (result, t) ← readScript (2 * t.length) t
  if t = "\n\x7d" then return ⟨name, params, constant, value, result⟩ else none

/-- The name that a callee is found by, unless it is a method of a value: the function itself, or
the object that writes JSON. -/
def Script.helper : Script → List Text
  | .name f => [f]
  | .member (.name object) method => if method = "stringify" then [object] else []
  | _ => []

mutual

def Script.helpers : Script → List Text
  | .name _ | .text _ => []
  | .template p => p.helpers
  | .member object _ => object.helpers
  | .call callee arg => callee.helper ++ callee.helpers ++ arg.helpers
  | .arrow _ body => body.helpers

def Template.helpers : Template → List Text
  | .last _ => []
  | .hole _ e later => e.helpers ++ later.helpers

end

namespace Declaration

/-- What a script engine refuses in a function, and what would make a call of it go astray. -/
structure IsSound (d : Declaration) : Prop where
  name : d.name ∉ reservedWords
  params : ∀ id ∈ d.params, id ∉ reservedWords
  distinct : d.params.Nodup
  declared : d.constant ∉ d.params
  helpers : ∀ id ∈ d.value.helpers ++ d.result.helpers, id ∉ d.params

/-- A text that declares a function as it should be. -/
def IsLegal (t : Text) : Prop :=
  ∃ d, read? t = some d ∧ d.IsSound

end Declaration

section Names

variable {ids : List Text} {rest : Text}

/-- A name as a backend text has it is a word of a script only if it is no picture. -/
theorem valid_of_word? {id : Text} (h : Identifier.IsWhole id) {r : Text × Text}
    (hr : word? (id ++ rest) = some r) : Identifier.Valid id := by
  refine h.resolve_right ?_
  rintro ⟨c, rfl, -, hstart⟩
  simp [word?, hstart] at hr

theorem join_cons (id id' : Text) (ids : List Text) (rest : Text) :
    Text.join ", " (id :: id' :: ids) ++ ')' :: rest =
      id ++ ',' :: ' ' :: (Text.join ", " (id' :: ids) ++ ')' :: rest) := by
  simp only [Text.join, List.intercalate_cons_cons, List.append_assoc]
  rfl

theorem join_one (id rest : Text) : Text.join ", " [id] ++ ')' :: rest = id ++ ')' :: rest := by
  simp [Text.join]

/-- Names with commas between them are read if all of them are words. -/
theorem readNames_join (hne : ids ≠ []) (hv : ∀ id ∈ ids, Identifier.Valid id) {n : Nat}
    (hn : ids.length ≤ n) :
    readNames n (Text.join ", " ids ++ ')' :: rest) = some (ids, rest) := by
  induction ids generalizing n with
  | nil => exact absurd rfl hne
  | cons id ids ih =>
    rw [List.length_cons] at hn
    obtain ⟨n, rfl⟩ : ∃ m, n = m + 1 := ⟨n - 1, by omega⟩
    have hid := hv id (by simp)
    cases ids with
    | nil =>
      rw [join_one, readNames, word_valid hid (by simp; decide)]
      rfl
    | cons id' ids =>
      have hlater := ih (by simp) (fun x hx => hv x (by simp [hx])) (Nat.le_of_succ_le_succ hn)
      rw [join_cons, readNames, word_valid hid (by simp; decide)]
      simp only [bind, Option.bind, hlater]
      rfl

/-- Names that a script engine reads between commas are names that it allows. -/
theorem valid_of_readNames (h : ∀ id ∈ ids, Identifier.IsWhole id) {n : Nat}
    {r : List Text × Text} (hr : readNames n (Text.join ", " ids ++ ')' :: rest) = some r) :
    ∀ id ∈ ids, Identifier.Valid id := by
  induction ids generalizing n r with
  | nil => simp
  | cons id ids ih =>
    cases n with
    | zero => cases hr
    | succ n =>
      have hid := h id (by simp)
      have hlater : ∀ x ∈ ids, Identifier.IsWhole x := fun x hx => h x (by simp [hx])
      cases ids with
      | nil =>
        rw [join_one, readNames] at hr
        obtain ⟨w, hw, -⟩ := Option.bind_eq_some_iff.mp hr
        simpa using valid_of_word? hid hw
      | cons id' ids =>
        rw [join_cons, readNames] at hr
        obtain ⟨w, hw, hr⟩ := Option.bind_eq_some_iff.mp hr
        have hv := valid_of_word? hid hw
        rw [word_valid hv (by simp; decide)] at hw
        obtain rfl := Option.some.inj hw
        obtain ⟨found, hfound, -⟩ := Option.bind_eq_some_iff.mp hr
        exact List.forall_mem_cons.mpr ⟨hv, ih hlater hfound⟩

theorem length_le_join (hv : ∀ id ∈ ids, Identifier.Valid id) :
    ids.length ≤ (Text.join ", " ids).length := by
  induction ids with
  | nil => exact Nat.zero_le _
  | cons id ids ih =>
    have hpos := valid_pos (hv id (by simp))
    have hlater := ih fun x hx => hv x (by simp [hx])
    cases ids with
    | nil => simpa [Text.join] using Nat.succ_le_of_lt hpos
    | cons id' ids =>
      simp only [Text.join, List.intercalate_cons_cons, List.length_append,
        List.length_cons] at hlater ⊢
      omega

/-- Where there is a parameter, the list does not end at once. -/
theorem readParams_more {id : Text} (h : Identifier.IsWhole id) (ids : List Text) (rest : Text) :
    ∃ n, readParams (Text.join ", " (id :: ids) ++ ')' :: rest) =
      readNames n (Text.join ", " (id :: ids) ++ ')' :: rest) ∧
        (Text.join ", " (id :: ids)).length ≤ n := by
  have hhead : ∃ c cs, id = c :: cs ∧ c ≠ ')' := by
    rcases h with ⟨c, cs, rfl, hc, -⟩ | ⟨c, rfl, hc, -⟩
    · refine ⟨c, cs, rfl, ?_⟩
      rintro rfl
      exact absurd hc (by decide)
    · refine ⟨c, [], rfl, ?_⟩
      rintro rfl
      exact absurd hc (by decide)
  obtain ⟨c, cs, rfl, hc⟩ := hhead
  have htext : ∃ t, Text.join ", " ((c :: cs) :: ids) ++ ')' :: rest = c :: t := by
    cases ids with
    | nil => exact ⟨_, join_one (c :: cs) rest⟩
    | cons id' ids => exact ⟨_, join_cons (c :: cs) id' ids rest⟩
  obtain ⟨t, ht⟩ := htext
  refine ⟨(c :: t).length, ?_, ?_⟩
  · rw [ht, readParams]
    rintro t' ⟨⟩
    exact hc rfl
  · rw [← ht, List.length_append]
    omega

/-- The parameters of a function are read if all of them are words. -/
theorem readParams_join (hv : ∀ id ∈ ids, Identifier.Valid id) :
    readParams (Text.join ", " ids ++ ')' :: rest) = some (ids, rest) := by
  cases ids with
  | nil => rfl
  | cons id ids =>
    obtain ⟨n, hread, hn⟩ := readParams_more (.inl (hv id (by simp))) ids rest
    rw [hread]
    exact readNames_join (by simp) hv (Nat.le_trans (length_le_join hv) hn)

theorem valid_of_readParams (h : ∀ id ∈ ids, Identifier.IsWhole id) {r : List Text × Text}
    (hr : readParams (Text.join ", " ids ++ ')' :: rest) = some r) :
    ∀ id ∈ ids, Identifier.Valid id := by
  cases ids with
  | nil => simp
  | cons id ids =>
    obtain ⟨n, hread, -⟩ := readParams_more (h id (by simp)) ids rest
    exact valid_of_readNames h (hread.symm.trans hr)

end Names

section Functions

/-- The function of a route without its documentation. -/
def declaration (r : Route) : Text :=
  "export function " ++ r.name ++ "(" ++ Text.join ", " (r.params.map (·.name))
    ++ ") \x7b\n    const res = fetchSync(`" ++ Client.address r
    ++ "`)\n    return res.response\n\x7d"

def declared (r : Route) : Declaration where
  name := r.name
  params := r.params.map (·.name)
  constant := "res"
  value := .call (.name "fetchSync".toList) (.template (addressTemplate r))
  result := .member (.name "res".toList) "response".toList

variable {r : Route}

theorem function_text (r : Route) : Client.function r = Client.docBlock r ++ declaration r := by
  unfold Client.function declaration
  simp only [List.append_assoc]

def bodyText (r : Route) : Text :=
  " \x7b\n    const ".toList ++ ("res".toList ++ (" = ".toList ++ ("fetchSync".toList ++ '(' :: '`' ::
    (Client.address r ++ '`' :: ')' :: ("\n    return ".toList ++ ("res".toList ++ '.' ::
      ("response".toList ++ "\n\x7d".toList)))))))

/-- The text of a function in the pieces that are read one after the other. -/
theorem declaration_text (r : Route) :
    declaration r = "export function ".toList ++ (r.name ++ '(' ::
      (Text.join ", " (r.params.map (·.name)) ++ ')' :: bodyText r)) := by
  have hopen : ") \x7b\n    const res = fetchSync(`".toList =
      ')' :: (" \x7b\n    const ".toList ++ ("res".toList ++ (" = ".toList
        ++ ("fetchSync".toList ++ ['(', '`'])))) := by decide +kernel
  have hclose : "`)\n    return res.response\n\x7d".toList =
      '`' :: ')' :: ("\n    return ".toList ++ ("res".toList ++ '.' :: ("response".toList
        ++ "\n\x7d".toList))) := by decide +kernel
  unfold declaration bodyText
  rw [hopen, hclose]
  simp only [List.append_assoc, List.cons_append, List.nil_append]
  rfl

theorem afterMark_append (mark t : Text) : afterMark mark (mark ++ t) = some t := by
  induction mark with
  | nil => rfl
  | cons c cs ih => simp [afterMark, List.isPrefixOf?]

/-- The header of a function is read back with its parameters if all names are allowed. -/
theorem readHeader_declaration (hname : Identifier.Valid r.name)
    (hparams : ∀ id ∈ r.params.map (·.name), Identifier.Valid id) :
    readHeader (declaration r) = some ((r.name, r.params.map (·.name)), bodyText r) := by
  have hexport (t : Text) : afterMark "export function " ("export function ".toList ++ t) = some t :=
    afterMark_append _ t
  have hword (t : Text) : word? (r.name ++ '(' :: t) = some (r.name, '(' :: t) :=
    word_valid hname (by simp; decide)
  have hparen (t : Text) : afterMark "(" ('(' :: t) = some t := rfl
  unfold readHeader
  rw [declaration_text]
  simp only [bind, Option.bind, hexport, hword, hparen, readParams_join hparams]
  rfl

/-- A header that is read has names that are words, and they are those of the route. -/
theorem valid_of_readHeader (hr : r.IsNamed) {found : (Text × List Text) × Text}
    (h : readHeader (declaration r) = some found) :
    Identifier.Valid r.name ∧ ∀ id ∈ r.params.map (·.name), Identifier.Valid id := by
  have hexport (t : Text) : afterMark "export function " ("export function ".toList ++ t) = some t :=
    afterMark_append _ t
  unfold readHeader at h
  rw [declaration_text, hexport] at h
  obtain ⟨t, ht, h⟩ := Option.bind_eq_some_iff.mp h
  obtain rfl := Option.some.inj ht
  obtain ⟨w, hw, h⟩ := Option.bind_eq_some_iff.mp h
  have hname := valid_of_word? hr.name hw
  rw [word_valid hname (by simp; decide)] at hw
  obtain rfl := Option.some.inj hw
  obtain ⟨t, ht, h⟩ := Option.bind_eq_some_iff.mp h
  obtain rfl := Option.some.inj ht
  obtain ⟨ids, hids, -⟩ := Option.bind_eq_some_iff.mp h
  refine ⟨hname, valid_of_readParams (fun id hid => ?_) hids⟩
  obtain ⟨p, hp, rfl⟩ := List.mem_map.mp hid
  exact hr.params p hp

theorem isAt_fetch (hname : IsName r.name) (hparams : ∀ p ∈ r.params, IsName p.name) {rest : Text}
    (h : IsEnd rest) :
    (declared r).value.IsAt ("fetchSync".toList ++ '(' :: '`' ::
      (Client.address r ++ '`' :: ')' :: rest)) rest := by
  refine Script.isAt_call (by decide +kernel)
    (isAt_address hname.1 hparams (isEnd_paren rest)) ?_ h
  simp only [List.length_cons, List.length_append]
  omega

theorem isAt_response : (declared r).result.IsAt ("res".toList ++ '.' :: ("response".toList
    ++ "\n\x7d".toList)) "\n\x7d" := by
  have hend : IsEnd "\n\x7d" := isEnd_cons (by decide) _
  intro n hn
  obtain ⟨n, rfl⟩ : ∃ m, n = m + 3 := ⟨n - 3, by simp at hn; omega⟩
  rw [readScript_word (by decide +kernel) (by simp; decide),
    readTrailers_member (by decide +kernel) hend.not_part]
  exact readTrailers_isEnd hend (Nat.succ_pos n)

/-- With names that a script can have, the function is read back. -/
theorem read_declaration (hname : IsName r.name) (hparams : ∀ p ∈ r.params, IsName p.name) :
    Declaration.read? (declaration r) = some (declared r) := by
  have hwords : ∀ id ∈ r.params.map (·.name), Identifier.Valid id := by
    intro id hid
    obtain ⟨p, hp, rfl⟩ := List.mem_map.mp hid
    exact (hparams p hp).1
  have hend (t : Text) : IsEnd ("\n    return ".toList ++ t) :=
    isEnd_cons (by decide) _
  have hres (t : Text) : word? ("res".toList ++ (" = ".toList ++ t)) =
      some ("res".toList, " = ".toList ++ t) := word_valid (by decide +kernel) (by simp; decide)
  refine Option.bind_eq_some_iff.mpr ⟨_, readHeader_declaration hname.1 hwords, ?_⟩
  refine Option.bind_eq_some_iff.mpr ⟨_, afterMark_append _ _, ?_⟩
  refine Option.bind_eq_some_iff.mpr ⟨_, hres _, ?_⟩
  refine Option.bind_eq_some_iff.mpr ⟨_, afterMark_append _ _, ?_⟩
  refine Option.bind_eq_some_iff.mpr
    ⟨_, isAt_fetch hname hparams (hend _) _ (Nat.le_refl _), ?_⟩
  refine Option.bind_eq_some_iff.mpr ⟨_, afterMark_append _ _, ?_⟩
  refine Option.bind_eq_some_iff.mpr ⟨_, @isAt_response r _ (Nat.le_refl _), ?_⟩
  exact if_pos rfl

end Functions

section Helpers

variable {p : Param} {q : Template} {r : Route}

@[simp]
theorem Template.helpers_push (c : Char) (q : Template) : (q.push c).helpers = q.helpers := by
  cases q <;> rfl

@[simp]
theorem Template.helpers_behind (s : Text) (q : Template) : (q.behind s).helpers = q.helpers := by
  induction s with
  | nil => rfl
  | cons c cs ih => exact (Template.helpers_push c _).trans ih

def partHelpers (p : Param) : List Text :=
  "encodeURIComponent" :: if p.wireType = some .table then ["JSON"] else []

theorem helpers_part (p : Param) (q : Template) :
    (partTemplate p q).helpers = partHelpers p ++ q.helpers := by
  unfold partTemplate partHelpers
  cases p.wireType with
  | none => simp [keyed, escaping, Template.helpers, Script.helpers, Script.helper]
  | some ty =>
    cases ty <;>
      simp [keyed, escaping, joining, stringified, Template.helpers, Script.helpers, Script.helper]

theorem helpers_query (mark : Char) (ps : List Param) :
    (queryTemplate mark ps).helpers = ps.flatMap partHelpers := by
  induction ps generalizing mark with
  | nil => rfl
  | cons p ps ih => rw [queryTemplate, Template.helpers_push, helpers_part, ih, List.flatMap_cons]

theorem mem_partHelpers {id : Text} :
    id ∈ partHelpers p ↔ id = "encodeURIComponent" ∨ p.wireType = some .table ∧ id = "JSON" := by
  unfold partHelpers
  split <;> simp [*]

/-- The names that a function relies on for its calls. -/
theorem mem_helpers {id : Text} :
    id ∈ (declared r).value.helpers ++ (declared r).result.helpers ↔
      id = "fetchSync" ∨ r.params ≠ [] ∧ id = "encodeURIComponent" ∨
        r.takes .table = true ∧ id = "JSON" := by
  have hvalue : (declared r).value.helpers = "fetchSync".toList :: r.params.flatMap partHelpers := by
    simp only [declared, addressTemplate, Script.helpers, Script.helper, Template.helpers_behind,
      helpers_query, List.append_nil, List.cons_append, List.nil_append]
  have hresult : (declared r).result.helpers = [] := rfl
  rw [hvalue, hresult, List.append_nil, List.mem_cons, List.mem_flatMap, Route.takes, List.any_eq_true]
  refine or_congr_right ⟨?_, ?_⟩
  · rintro ⟨p, hp, hid⟩
    rcases mem_partHelpers.mp hid with rfl | ⟨hty, rfl⟩
    · exact .inl ⟨List.ne_nil_of_mem hp, rfl⟩
    · exact .inr ⟨⟨p, hp, decide_eq_true hty⟩, rfl⟩
  · rintro (⟨hne, rfl⟩ | ⟨⟨p, hp, hty⟩, rfl⟩)
    · obtain ⟨p, hp⟩ := List.exists_mem_of_ne_nil _ hne
      exact ⟨p, hp, mem_partHelpers.mpr (.inl rfl)⟩
    · exact ⟨p, hp, mem_partHelpers.mpr (.inr ⟨of_decide_eq_true hty, rfl⟩)⟩

/-- A route whose names a script can have, and whose parameters leave alone what its function
makes and relies on. -/
structure Scriptable (r : Route) : Prop where
  name : IsName r.name
  params : ∀ p ∈ r.params, IsName p.name
  free : ∀ p ∈ r.params, p.name ∉ ["res".toList, "fetchSync".toList, "encodeURIComponent".toList]
  json : r.takes .table = true → ∀ p ∈ r.params, p.name ≠ "JSON"

/-- A function whose names are allowed and apart is a sound declaration. -/
theorem Scriptable.isSound (h : Scriptable r) (hr : r.IsNamed) : (declared r).IsSound where
  name := h.name.2
  params id hid := by
    obtain ⟨p, hp, rfl⟩ := List.mem_map.mp hid
    exact (h.params p hp).2
  distinct := hr.distinct
  declared hres := by
    obtain ⟨p, hp, hname⟩ := List.mem_map.mp hres
    exact h.free p hp (hname ▸ .head _)
  helpers id hid hparam := by
    obtain ⟨p, hp, rfl⟩ := List.mem_map.mp hparam
    rcases mem_helpers.mp hid with hid | ⟨-, hid⟩ | ⟨htable, hid⟩
    · exact h.free p hp (hid ▸ .tail _ (.head _))
    · exact h.free p hp (hid ▸ .tail _ (.tail _ (.head _)))
    · exact h.json htable p hp hid

theorem scriptable_of_isSound (h : (declared r).IsSound) (hname : IsName r.name)
    (hparams : ∀ p ∈ r.params, IsName p.name) : Scriptable r where
  name := hname
  params := hparams
  free p hp hid := by
    have hmem : p.name ∈ (declared r).params := List.mem_map_of_mem hp
    have hne : r.params ≠ [] := List.ne_nil_of_mem hp
    have hres : "res".toList ∉ (declared r).params := h.declared
    simp only [List.mem_cons, List.not_mem_nil, or_false] at hid
    rcases hid with hid | hid | hid
    · exact hres (hid ▸ hmem)
    · exact h.helpers _ (mem_helpers.mpr (.inl hid)) hmem
    · exact h.helpers _ (mem_helpers.mpr (.inr (.inl ⟨hne, hid⟩))) hmem
  json htable p hp hid :=
    h.helpers _ (mem_helpers.mpr (.inr (.inr ⟨htable, hid⟩))) (List.mem_map_of_mem hp)

theorem Declaration.read?_header {t : Text} {d : Declaration} (h : read? t = some d) :
    ∃ rest, readHeader t = some ((d.name, d.params), rest) := by
  obtain ⟨⟨⟨name, ids⟩, rest⟩, hheader, h⟩ := Option.bind_eq_some_iff.mp h
  obtain ⟨_, -, h⟩ := Option.bind_eq_some_iff.mp h
  obtain ⟨_, -, h⟩ := Option.bind_eq_some_iff.mp h
  obtain ⟨_, -, h⟩ := Option.bind_eq_some_iff.mp h
  obtain ⟨_, -, h⟩ := Option.bind_eq_some_iff.mp h
  obtain ⟨_, -, h⟩ := Option.bind_eq_some_iff.mp h
  obtain ⟨⟨result, t⟩, -, h⟩ := Option.bind_eq_some_iff.mp h
  dsimp only at h
  split at h
  · obtain rfl := Option.some.inj h
    exact ⟨rest, hheader⟩
  · cases h

/-- The function of a route with well-formed names is a legal declaration if its names allow it. -/
theorem isLegal_iff (hr : r.IsNamed) : Declaration.IsLegal (declaration r) ↔ Scriptable r := by
  constructor
  · rintro ⟨d, hd, hsound⟩
    obtain ⟨rest, hheader⟩ := Declaration.read?_header hd
    obtain ⟨hname, hparams⟩ := valid_of_readHeader hr hheader
    have hfound := hheader.symm.trans (readHeader_declaration hname hparams)
    obtain ⟨hd1, hd2⟩ := Prod.mk.inj (Prod.mk.inj (Option.some.inj hfound)).1
    have hname : IsName r.name := ⟨hname, hd1 ▸ hsound.name⟩
    have hparams : ∀ p ∈ r.params, IsName p.name := fun p hp =>
      have hmem := List.mem_map_of_mem hp
      ⟨hparams _ hmem, hsound.params _ (hd2 ▸ hmem)⟩
    obtain rfl := Option.some.inj (hd.symm.trans (read_declaration hname hparams))
    exact scriptable_of_isSound hsound hname hparams
  · intro h
    exact ⟨_, read_declaration h.name h.params, h.isSound hr⟩

end Helpers

/-- A client is made of every extraction from a file that was read. Each of its functions is a
legal declaration if, and only if, the names of the route are words that a script does not reserve
and no parameter has the name of the constant of the function or of what its body calls. -/
theorem client_declares [CharacterNames] {path text : Text} {s : Source}
    (hs : Source.ofText path text = .ok s)
    {names : List Text} {e : Extraction} (h : Extraction.ofSource s names = .ok e) :
    ∃ c, Client.generate e.routes = .ok c ∧
      c.source = Text.join "\n\n" (e.routes.map fun r => Client.docBlock r ++ declaration r) ++ "\n" ∧
      ∀ r ∈ e.routes, Declaration.IsLegal (declaration r) ↔ Scriptable r := by
  refine ⟨_, Extraction.generate_client h, ?_,
    fun r hr => isLegal_iff (Extraction.route_named hs h hr)⟩
  rw [← funext function_text]
  rfl

theorem scriptable_echo {name : Text} (h : IsName name) : Scriptable (.echo name "x") where
  name := h
  params := List.forall_mem_singleton.mpr (by decide +kernel)
  free := List.forall_mem_singleton.mpr (by decide +kernel)
  json htable := absurd htable (by simp [Route.echo, Route.takes])

theorem client_declares_save : ∃ c,
    Source.ofText "src/App.py" (Source.echo "save" "x").text = .ok (.echo "save" "x") ∧
    Extraction.ofSource (.echo "save" "x") ["save"] = .ok ⟨[.echo "save" "x"], []⟩ ∧
    Client.generate [.echo "save" "x"] = .ok c ∧
    Declaration.IsLegal (declaration (.echo "save" "x")) := by
  have hfile : Source.ofText "src/App.py" (Source.echo "save" "x").text =
      .ok (.echo "save" "x") := by rfl
  have hroutes : Extraction.ofSource (.echo "save" "x") ["save"] =
      .ok ⟨[.echo "save" "x"], []⟩ := by rfl
  obtain ⟨c, hc, -, hlegal⟩ := client_declares hfile hroutes
  exact ⟨c, hfile, hroutes, hc,
    (hlegal _ (.head _)).mpr (scriptable_echo (by decide +kernel))⟩

/-- A function whose name a script reserves is declared under it all the same. -/
theorem client_declares_delete : ∃ c,
    Source.ofText "src/App.py" (Source.echo "delete" "x").text = .ok (.echo "delete" "x") ∧
    Extraction.ofSource (.echo "delete" "x") ["delete"] = .ok ⟨[.echo "delete" "x"], []⟩ ∧
    Client.generate [.echo "delete" "x"] = .ok c ∧
    ¬Declaration.IsLegal (declaration (.echo "delete" "x")) := by
  have hfile : Source.ofText "src/App.py" (Source.echo "delete" "x").text =
      .ok (.echo "delete" "x") := by rfl
  have hroutes : Extraction.ofSource (.echo "delete" "x") ["delete"] =
      .ok ⟨[.echo "delete" "x"], []⟩ := by rfl
  refine ⟨_, hfile, hroutes, Extraction.generate_client hroutes, fun hlegal => ?_⟩
  have hnamed := Extraction.route_named hfile hroutes (.head _)
  exact ((isLegal_iff hnamed).mp hlegal).name.2 (by decide +kernel)

end Pagewright.Wire
