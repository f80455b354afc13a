import Mathlib.Data.List.Perm.Basic
import Pagewright.Proofs.Extraction
import Pagewright.Server

namespace Pagewright.Server

open Syntax

/-- What stands between the forwarded imports and the handlers. -/
def preamble (tables booleans : Bool) : Text :=
  importLines [] tables ++ bootstrap booleans

def handlers (routes : List Route) : Text :=
  routes.flatMap fun r => "\n\n" ++ handler r

def defines : Stmt → List Text
  | .importNames _ names => names.map fun a => a.bound.getD (a.name.takeWhile (· ≠ '.'))
  | .importFrom _ _ _ names => names.map fun a => a.bound.getD a.name
  | .function _ head _ => [head.name]
  | _ => []

def definitions? (t : Text) : Option (List Text) :=
  match parse t with
  | .ok body => some (body.flatMap defines)
  | .error _ => none

/-- Whether a name is defined before the handlers by the server itself: in its own import lines or
behind them. -/
def IsProvided (tables booleans : Bool) (id : Text) : Prop :=
  ∃ imported defined, definitions? (importLines [] tables) = some imported ∧
    definitions? (bootstrap booleans) = some defined ∧ id ∈ imported ++ defined

/-- A text has a word where nothing that could belong to it stands before or behind it. -/
def HasWord (t id : Text) : Prop :=
  ∃ a b, t = a ++ id ++ b ∧ (∀ c ∈ a.getLast?, Identifier.isPart c = false) ∧
    ∀ c ∈ b.head?, Identifier.isPart c = false

/-- A name that reading a parameter refers to by itself: whatever the parameter is called and
whatever its default is, if it has one. -/
def Refers (p : Param) (id : Text) : Prop :=
  ∀ name d, HasWord (decode { p with name := name, fallback := p.fallback.map fun _ => d }) id

def framework : List Text :=
  ["Quart", "request", "cors"]

def helpers : List Text :=
  ["_as_bool", "_json", "_pd"]

def helpersFor : WireType → List Text
  | .boolean => ["_as_bool"]
  | .table => ["_json", "_pd"]
  | _ => []

section Words

variable {id a b : Text} {c d : Char}

theorem hasWord_between (hc : Identifier.isPart c = false) (hd : Identifier.isPart d = false) :
    HasWord (a ++ [c] ++ id ++ d :: b) id :=
  ⟨a ++ [c], d :: b, rfl, by simpa using hc, by simpa using hd⟩

theorem hasWord_start (hd : Identifier.isPart d = false) : HasWord (id ++ d :: b) id :=
  ⟨[], d :: b, rfl, by simp, by simpa using hd⟩

theorem HasWord.occurs {t : Text} (h : HasWord t id) : id <:+: t := by
  obtain ⟨a, b, rfl, -⟩ := h
  exact List.infix_append a id b

end Words

section References

variable {p : Param}

/-- The expressions for parameters without a name, and without a default or with an empty one, hold
no helper but those of the type. -/
theorem helper_of_infix {ty : Option WireType} {id : Text} (hid : id ∈ helpers)
    (h : id <:+: decode ⟨[], none, ty, none⟩ ∨ id <:+: decode ⟨[], none, ty, some []⟩) :
    ∃ t, ty = some t ∧ id ∈ helpersFor t := by
  have hown : ∀ id ∈ helpers, (id <:+: decode ⟨[], none, ty, none⟩ ∨
      id <:+: decode ⟨[], none, ty, some []⟩) → id ∈ (ty.map helpersFor).getD [] := by
    cases ty with
    | none => decide +kernel
    | some ty => cases ty <;> decide +kernel
  have hmem := hown id hid h
  cases ty with
  | none => cases hmem
  | some t => exact ⟨t, rfl, hmem⟩

/-- The read of a truth value refers to the server's own reader. -/
theorem refers_boolean (h : p.wireType = some .boolean) : Refers p "_as_bool" := by
  intro name d
  have hplain : "', type=".toList = "', type".toList ++ ['='] := rfl
  have hdefault : ", type=".toList = ", type".toList ++ ['='] := rfl
  have hend : ")".toList = [')'] := rfl
  unfold decode
  cases p.fallback with
  | none =>
    simp only [h, Option.map_none, hplain, hend, ← List.append_assoc]
    exact hasWord_between (by decide +kernel) (by decide +kernel)
  | some _ =>
    simp only [h, Option.map_some, hdefault, hend, ← List.append_assoc]
    exact hasWord_between (by decide +kernel) (by decide +kernel)

theorem refers_table (h : p.wireType = some .table) : Refers p "_json" ∧ Refers p "_pd" := by
  have hjson : "_pd.DataFrame(_json.loads(request.args".toList =
      "_pd.DataFrame".toList ++ ['('] ++ "_json".toList ++ '.' :: "loads(request.args".toList := rfl
  have hpandas : "_pd.DataFrame(_json.loads(request.args".toList =
      "_pd".toList ++ '.' :: "DataFrame(_json.loads(request.args".toList := rfl
  have hdecode (name d : Text) : ∃ t, decode { p with
      name := name, fallback := p.fallback.map fun _ => d } =
        "_pd.DataFrame(_json.loads(request.args".toList ++ t := by
    have hget : "_pd.DataFrame(_json.loads(request.args.get('".toList =
        "_pd.DataFrame(_json.loads(request.args".toList ++ ".get('".toList := rfl
    have hitem : "_pd.DataFrame(_json.loads(request.args['".toList =
        "_pd.DataFrame(_json.loads(request.args".toList ++ "['".toList := rfl
    unfold decode
    cases p.fallback with
    | none =>
      simp only [h, Option.map_none, hget, List.append_assoc]
      exact ⟨_, rfl⟩
    | some _ =>
      simp only [h, Option.map_some, hitem, List.append_assoc]
      exact ⟨_, rfl⟩
  constructor
  · intro name d
    obtain ⟨t, ht⟩ := hdecode name d
    rw [ht, hjson, List.append_assoc, List.cons_append]
    exact hasWord_between (by decide +kernel) (by decide +kernel)
  · intro name d
    obtain ⟨t, ht⟩ := hdecode name d
    rw [ht, hpandas, List.append_assoc, List.cons_append]
    exact hasWord_start (by decide +kernel)

/-- The code for a parameter refers to the helpers of its type and to no others. -/
theorem refers_iff {id : Text} (hid : id ∈ helpers) :
    Refers p id ↔ ∃ t, p.wireType = some t ∧ id ∈ helpersFor t := by
  constructor
  · intro h
    have hinfix := (h [] []).occurs
    refine helper_of_infix hid ?_
    cases hp : p.fallback with
    | none =>
      rw [hp] at hinfix
      exact .inl hinfix
    | some d =>
      rw [hp] at hinfix
      exact .inr hinfix
  · rintro ⟨t, hty, hmem⟩
    cases t with
    | boolean =>
      obtain rfl := List.mem_singleton.mp hmem
      exact refers_boolean hty
    | table =>
      simp only [helpersFor, List.mem_cons, List.not_mem_nil, or_false] at hmem
      rcases hmem with rfl | rfl
      · exact (refers_table hty).1
      · exact (refers_table hty).2
    | _ => cases hmem

end References

theorem definitions_imports (tables : Bool) : definitions? (importLines [] tables) =
    some (framework ++ if tables then helpersFor .table else []) := by
  unfold importLines
  -- As lists of characters the texts are read much faster than as strings.
  rw [String.toList_ofList, String.toList_ofList]
  cases tables <;> decide +kernel

theorem definitions_bootstrap (booleans : Bool) : definitions? (bootstrap booleans) =
    some ((if booleans then helpersFor .boolean else []) ++ ["root_".toList]) := by
  unfold bootstrap
  rw [String.toList_ofList, String.toList_ofList, String.toList_ofList]
  cases booleans <;> decide +kernel

section Routes

variable {routes later : List Route}

/-- A helper is defined if it is one for tables or for truth values and these occur. -/
theorem isProvided_iff {tables booleans : Bool} {id : Text} (hid : id ∈ helpers) :
    IsProvided tables booleans id ↔ (tables = true ∧ id ∈ helpersFor .table) ∨
      (booleans = true ∧ id ∈ helpersFor .boolean) := by
  have hother : id ∉ framework ∧ id ∉ ["root_".toList] :=
    (by decide : ∀ id ∈ helpers, id ∉ framework ∧ id ∉ ["root_".toList]) id hid
  have hmem : IsProvided tables booleans id ↔
      id ∈ (framework ++ if tables then helpersFor .table else []) ++
        ((if booleans then helpersFor .boolean else []) ++ ["root_".toList]) := by
    constructor
    · rintro ⟨imported, defined, himported, hdefined, hmem⟩
      obtain rfl := Option.some.inj ((definitions_imports tables).symm.trans himported)
      obtain rfl := Option.some.inj ((definitions_bootstrap booleans).symm.trans hdefined)
      exact hmem
    · exact fun hmem => ⟨_, _, definitions_imports tables, definitions_bootstrap booleans, hmem⟩
  rw [hmem]
  generalize ["root_".toList] = page at hother
  cases tables <;> cases booleans <;> simp [hother]

theorem any_takes_iff {ty : WireType} : routes.any (·.takes ty) = true ↔
    ∃ r ∈ routes, ∃ p ∈ r.params, p.wireType = some ty := by
  simp [Route.takes, List.any_eq_true]

/-- What the preamble defines is what the code for the parameters refers to. -/
theorem isProvided_iff_refers {id : Text} (hid : id ∈ helpers) :
    IsProvided (routes.any (·.takes .table)) (routes.any (·.takes .boolean)) id ↔
      ∃ r ∈ routes, ∃ p ∈ r.params, Refers p id := by
  rw [isProvided_iff hid, any_takes_iff, any_takes_iff]
  constructor
  · rintro (⟨⟨r, hr, p, hp, hty⟩, hmem⟩ | ⟨⟨r, hr, p, hp, hty⟩, hmem⟩)
    · exact ⟨r, hr, p, hp, (refers_iff hid).mpr ⟨_, hty, hmem⟩⟩
    · exact ⟨r, hr, p, hp, (refers_iff hid).mpr ⟨_, hty, hmem⟩⟩
  · rintro ⟨r, hr, p, hp, href⟩
    obtain ⟨t, hty, hmem⟩ := (refers_iff hid).mp href
    cases t with
    | table => exact .inl ⟨⟨r, hr, p, hp, hty⟩, hmem⟩
    | boolean => exact .inr ⟨⟨r, hr, p, hp, hty⟩, hmem⟩
    | _ => cases hmem

theorem render_eq (routes : List Route) (imports : List Text) :
    render routes imports = imports.flatMap (· ++ ['\n']) ++ preamble (routes.any (·.takes .table))
      (routes.any (·.takes .boolean)) ++ handlers routes ++ footer := by
  simp only [render, importLines, preamble, handlers, List.flatMap_nil, List.nil_append,
    List.append_assoc]
  rfl

theorem generate_eq (h : Route.validate routes = .ok ()) (imports : List Text) :
    generate routes imports = .ok (imports.flatMap (· ++ ['\n'])
      ++ preamble (routes.any (·.takes .table)) (routes.any (·.takes .boolean))
      ++ handlers routes ++ footer) := by
  rw [generate, h, ← render_eq]
  rfl

theorem handlers_append : handlers (routes ++ later) = handlers routes ++ handlers later :=
  List.flatMap_append

theorem any_takes_append (ty : WireType) : (routes ++ later).any (·.takes ty) =
    (routes.any (·.takes ty) || later.any (·.takes ty)) :=
  List.any_append

theorem validate_append (h : Route.validate routes = .ok ()) (h' : Route.validate later = .ok ()) :
    Route.validate (routes ++ later) = .ok () := by
  obtain ⟨hne, htyped⟩ := Route.validate_eq_ok_iff.mp h
  obtain ⟨-, htyped'⟩ := Route.validate_eq_ok_iff.mp h'
  refine Route.validate_eq_ok_iff.mpr ⟨by simp [hne], fun r hr => ?_⟩
  exact (List.mem_append.mp hr).elim (htyped r) (htyped' r)

theorem validate_perm (h : Route.validate routes = .ok ()) (hperm : routes.Perm later) :
    Route.validate later = .ok () := by
  obtain ⟨hne, htyped⟩ := Route.validate_eq_ok_iff.mp h
  refine Route.validate_eq_ok_iff.mpr ⟨fun hnil => hne ?_, fun r hr => ?_⟩
  · rw [hnil] at hperm
    exact hperm.eq_nil
  · exact htyped r (hperm.mem_iff.mpr hr)

theorem any_perm (hperm : routes.Perm later) (f : Route → Bool) : later.any f = routes.any f := by
  rw [Bool.eq_iff_iff]
  simp [List.any_eq_true, hperm.mem_iff]

/-- The server text of valid routes is the forwarded imports, the preamble, which depends on nothing
but whether tables and truth values are taken, then the handler of each route on its own and in
order, then the footer. So the handlers of joined routes are those of both, those of reordered
routes are reordered behind the same preamble, and a helper is defined before the handlers if, and
only if, the code for a parameter of some route refers to it. -/
theorem generate_parts (h : Route.validate routes = .ok ()) (imports : List Text) :
    generate routes imports = .ok (imports.flatMap (· ++ ['\n'])
        ++ preamble (routes.any (·.takes .table)) (routes.any (·.takes .boolean))
        ++ handlers routes ++ footer) ∧
      (∀ later, Route.validate later = .ok () → generate (routes ++ later) imports =
        .ok (imports.flatMap (· ++ ['\n'])
          ++ preamble (routes.any (·.takes .table) || later.any (·.takes .table))
            (routes.any (·.takes .boolean) || later.any (·.takes .boolean))
          ++ handlers routes ++ handlers later ++ footer)) ∧
      (∀ later, routes.Perm later → generate later imports =
          .ok (imports.flatMap (· ++ ['\n'])
            ++ preamble (routes.any (·.takes .table)) (routes.any (·.takes .boolean))
            ++ handlers later ++ footer) ∧ (routes.map handler).Perm (later.map handler)) ∧
      ∀ id ∈ helpers,
        IsProvided (routes.any (·.takes .table)) (routes.any (·.takes .boolean)) id ↔
          ∃ r ∈ routes, ∃ p ∈ r.params, Refers p id := by
  refine ⟨generate_eq h imports, fun later h' => ?_, fun later hperm => ⟨?_, hperm.map handler⟩,
    fun id hid => isProvided_iff_refers hid⟩
  · rw [generate_eq (validate_append h h'), handlers_append, any_takes_append, any_takes_append,
      ← List.append_assoc]
  · rw [generate_eq (validate_perm h hperm), any_perm hperm, any_perm hperm]

end Routes

/-- A route with a truth value and a table, the one with a default and the other one without. -/
def mixed : Route :=
  ⟨"mixed", [⟨"flag", some "bool", some .boolean, some "True"⟩,
    ⟨"frame", some "DataFrame", some .table, none⟩], none, none, ["    return flag\n"]⟩

theorem generate_parts_mixed : Route.validate [mixed] = .ok () ∧
    generate [mixed, mixed] [] =
      .ok (preamble true true ++ handlers [mixed] ++ handlers [mixed] ++ footer) ∧
    IsProvided true true "_as_bool" := by
  have hvalid : Route.validate [mixed] = .ok () := by rfl
  obtain ⟨-, happend, -, hprovided⟩ := generate_parts hvalid []
  refine ⟨hvalid, happend [mixed] hvalid, (hprovided "_as_bool" (.head _)).mpr ?_⟩
  exact ⟨mixed, .head _, _, .head _, refers_boolean rfl⟩

end Pagewright.Server
