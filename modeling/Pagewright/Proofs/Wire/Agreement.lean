import Pagewright.Proofs.Wire.Escaping
import Pagewright.Proofs.Wire.Reads

namespace Pagewright.Wire

open Syntax

def Sent.received : Sent → Value
  | .text t => .text t
  | .number n => .int n
  | .bool b => .bool b
  | .texts ts => .texts ts
  | .table value => .frame value

namespace Handler

/-- A default has a value wherever it is evaluated, and sets no variable. -/
def Settles [CharacterNames] (h : Handler) (fallback : Text) : Prop :=
  ∀ vars, ∃ v, h.evalText fallback vars = some (v, vars)

/-- A handler sets none of the names that the read of a parameter uses. -/
structure Free (h : Handler) (p : Param) : Prop where
  request : "request".toList ∉ h.assigned
  json : "_json".toList ∉ h.assigned
  pandas : "_pd".toList ∉ h.assigned
  cast : castName p ∉ h.assigned

variable {h : Handler} {p : Param} {vars : Locals}

/-- The cast of a parameter gives back what was sent as one text. -/
theorem castBy_carried [CharacterNames] {w : Browser} {v : Sent} {t : Text} {ty : WireType}
    (hty : p.wireType = some ty)
    (hv : v.HasType ty) (ht : carried w v = [t]) (hl : ty ≠ .list) (hf : ty ≠ .table) :
    castBy p t = some v.received := by
  cases ty with
  | list => exact absurd rfl hl
  | table => exact absurd rfl hf
  | _ =>
    cases v <;> first | exact hv.elim | skip
    obtain rfl := (List.cons.inj ht).1
    simp only [castBy, hty, int?_ofInt, asBool?_written, Option.map_some, Sent.received]

/-- What a parameter becomes: the value that was sent, but for an empty list with a default. -/
def Receives [CharacterNames] (h : Handler) (p : Param) (v : Sent) (vars : Locals) (v' : Value) :
    Prop :=
  match v, p.fallback with
  | .texts [], some fallback => h.evalText fallback vars = some (v', vars)
  | v, _ => v' = v.received

variable {w : Browser} {v : Sent} {ty : WireType}

theorem receives_sent [CharacterNames] (h' : v = .texts [] → p.fallback = none) :
    Receives h p v vars v.received := by
  unfold Receives
  split
  · rename_i hfallback
    rw [h' rfl] at hfallback
    exact absurd hfallback (by simp)
  · rfl

theorem carried_one (hv : v.HasType ty) (hl : ty ≠ .list) : ∃ t, carried w v = [t] := by
  cases v with
  | texts ts => cases ty <;> first | exact hv.elim | exact absurd rfl hl
  | _ => exact ⟨_, rfl⟩

theorem Free.uses (hfree : h.Free p) : ∀ id ∈ uses p, id ∉ h.assigned := by
  intro id hid
  unfold Wire.uses at hid
  split at hid <;> simp only [List.mem_cons, List.not_mem_nil, or_false] at hid
  · exact hid ▸ hfree.request
  · rcases hid with rfl | rfl | rfl
    exacts [hfree.request, hfree.json, hfree.pandas]
  · rcases hid with rfl | rfl
    exacts [hfree.request, hfree.cast]

/-- What is meant to be read is what was sent, but for an empty list with a default. -/
theorem intended_sent [CharacterNames] (hty : p.wireType = some ty) (hv : v.HasType ty)
    (hload : ∀ j, v = .table j → h.loads (w.stringify j) = some j)
    (hq : values p.name h.query = carried w v) (hset : ∀ d, p.fallback = some d → h.Settles d) :
    ∃ v', h.intended? p vars = some (v', vars) ∧ h.Receives p v vars v' := by
  have hsent : ty ≠ .list → h.Receives p v vars v.received := by
    intro hl
    refine receives_sent fun hnil => ?_
    subst hnil
    cases ty <;> first | exact hv.elim | exact absurd rfl hl
  have hcast : ty ≠ .list → ty ≠ .table → ∀ fallback, h.read p.name fallback (castBy p) = v.received := by
    intro hl hf fallback
    obtain ⟨t, ht⟩ := carried_one (w := w) hv hl
    exact read_one (hq.trans ht) (castBy_carried hty hv ht hl hf)
  have hscalar : ty ≠ .list → ty ≠ .table →
      ∃ v', h.intended? p vars = some (v', vars) ∧ h.Receives p v vars v' := by
    intro hl hf
    refine ⟨v.received, ?_, hsent hl⟩
    rw [intended_cast (by rwa [hty, ne_eq, Option.some_inj]) (by rwa [hty, ne_eq, Option.some_inj])]
    cases hd : p.fallback with
    | none => simp only [hcast hl hf]
    | some d =>
      obtain ⟨r, hr⟩ := hset d hd vars
      simp only [hr, Option.map_some, hcast hl hf]
  cases ty with
  | list =>
    cases v <;> first | exact hv.elim | skip
    rename_i ts
    unfold intended?
    rw [hty, hq]
    cases ts with
    | cons t ts => exact ⟨_, rfl, receives_sent (by simp)⟩
    | nil =>
      cases hd : p.fallback with
      | none => exact ⟨_, rfl, receives_sent fun _ => hd⟩
      | some d =>
        obtain ⟨r, hr⟩ := hset d hd vars
        refine ⟨r, hr, ?_⟩
        unfold Receives
        simp only [hd]
        exact hr
  | table =>
    cases v <;> first | exact hv.elim | skip
    rename_i j
    refine ⟨.frame j, ?_, hsent (by simp)⟩
    have hone : values p.name h.query = [w.stringify j] := hq
    unfold intended?
    rw [hty, hone]
    exact congrArg (Option.map fun j => (Value.frame j, vars)) (hload j rfl)
  | string => exact hscalar (by simp) (by simp)
  | integer => exact hscalar (by simp) (by simp)
  | boolean => exact hscalar (by simp) (by simp)

/-- What the read of a parameter gives, with or without a default. -/
theorem evalText_decode [CharacterNames] (hfree : h.Free p) (hname : Identifier.Valid p.name)
    (hty : p.wireType = some ty) (hv : v.HasType ty)
    (hload : ∀ j, v = .table j → h.loads (w.stringify j) = some j)
    (hq : values p.name h.query = carried w v)
    (hdefault : ∀ d, p.fallback = some d → Whole p d ∧ h.Settles d) :
    ∃ v', h.evalText (Server.decode p) vars = some (v', vars) ∧ h.Receives p v vars v' := by
  rw [evalText_intended hfree.uses (isHeld_of_whole (.inl hname)) fun d hd =>
    ⟨(hdefault d hd).1, _, ((hdefault d hd).2 vars).choose_spec⟩]
  exact intended_sent hty hv hload hq fun d hd => (hdefault d hd).2

/-- The variables of the parameters after some variables, each as its parameter becomes. -/
structure Bound [CharacterNames] (h : Handler) (sent : Text → Sent) (ps : List Param)
    (vars final : Locals) :
    Prop where
  later : vars <:+ final
  other : ∀ key, key ∉ ps.map (·.name) → final.lookup key = vars.lookup key
  own : ∀ p ∈ ps, ∃ v before, final.lookup p.name = some v ∧ before <:+ final ∧
    h.Receives p (sent p.name) before v

/-- If every read gives what its parameter becomes, the prologue binds every parameter to it. -/
theorem prologue_bound [CharacterNames] {sent : Text → Sent} {ps : List Param}
    (hd : (ps.map (·.name)).Nodup)
    (hread : ∀ p ∈ ps, ∀ vars, ∃ v, h.evalText (Server.decode p) vars = some (v, vars) ∧
      h.Receives p (sent p.name) vars v) (vars : Locals) :
    ∃ final, h.prologue ps vars = some final ∧ h.Bound sent ps vars final := by
  induction ps generalizing vars with
  | nil => exact ⟨vars, rfl, List.suffix_refl _, fun _ _ => rfl, fun p hp => absurd hp (by simp)⟩
  | cons p ps ih =>
    simp only [List.map_cons, List.nodup_cons] at hd
    obtain ⟨v, hv, hrec⟩ := hread p (by simp) vars
    obtain ⟨final, hfinal, hbound⟩ := ih hd.2 (fun q hq => hread q (by simp [hq])) ((p.name, v) :: vars)
    have hlater : vars <:+ final := (List.suffix_cons _ _).trans hbound.later
    refine ⟨final, ?_, hlater, fun key hkey => ?_, fun q hq => ?_⟩
    · rw [prologue, hv]
      exact hfinal
    · simp only [List.map_cons, List.mem_cons, not_or] at hkey
      rw [hbound.other key hkey.2, List.lookup_cons, beq_eq_false_iff_ne.mpr hkey.1]
    · rcases List.mem_cons.mp hq with rfl | hq
      · refine ⟨v, vars, ?_, hlater, hrec⟩
        rw [hbound.other _ hd.1, List.lookup_cons_self]
      · exact hbound.own q hq

end Handler

def generatedNames : List Text :=
  ["request", "res", "fetchSync", "encodeURIComponent", "JSON", "_as_bool", "_json", "_pd", "str",
   "int"]

def Handler.answering (r : Route) (unescape : Text → Text) (loads : Text → Option Json)
    (own : Expr → Locals → Option (Value × Locals)) (address : Text) : Handler :=
  ⟨fields unescape address, r.params.map (·.name), loads, own⟩

def arguments (r : Route) (sent : Text → Sent) : List (Text × Sent) :=
  r.params.map fun p => (p.name, sent p.name)

theorem lookup_arguments {sent : Text → Sent} (ps : List Param) (key : Text) :
    (ps.map fun p => (p.name, sent p.name)).lookup key =
      if key ∈ ps.map (·.name) then some (sent key) else none := by
  induction ps with
  | nil => rfl
  | cons p ps ih =>
    rw [List.map_cons, List.lookup_cons, ih]
    by_cases hkey : key = p.name
    · simp [hkey]
    · rw [beq_eq_false_iff_ne.mpr hkey]
      simp [hkey]

theorem unresolved_isEmpty {r : Route} :
    r.unresolved.isEmpty = true ↔ ∀ p ∈ r.params, ∃ ty, p.wireType = some ty := by
  rw [List.isEmpty_iff, Route.unresolved, List.filter_eq_nil_iff]
  refine forall₂_congr fun p _ => ?_
  rw [Option.isNone_iff_eq_none, ← Option.ne_none_iff_exists']

/-- The parameters of routes that pass the check have wire types. -/
theorem wireType_of_validate {routes : List Route} (hvalid : Route.validate routes = .ok ())
    {r : Route} (hr : r ∈ routes) : ∀ p ∈ r.params, ∃ ty, p.wireType = some ty := by
  unfold Route.validate at hvalid
  split at hvalid
  · exact absurd hvalid (by simp)
  · split at hvalid
    · exact absurd hvalid (by simp)
    · rename_i hfind
      have hnone := List.find?_eq_none.mp hfind r hr
      exact unresolved_isEmpty.mp (by simpa using hnone)

/-- A route with a parameter of each wire type, some of them with defaults. -/
def sample : Route where
  name := "save"
  params :=
    [⟨"who", some "str", some .string, none⟩, ⟨"n", some "int", some .integer, some "5"⟩,
     ⟨"fresh", some "bool", some .boolean, none⟩,
     ⟨"tags", some "list", some .list, some "[\"new\"]"⟩,
     ⟨"rows", some "DataFrame", some .table, none⟩]
  returnType := none
  docstring := none
  body := []

/-- The values of a call of the route; the list is empty. -/
def sampleSent (name : Text) : Sent :=
  if name = "who" then .text "a&b=ü".toList
  else if name = "n" then .number (-7)
  else if name = "fresh" then .bool true
  else if name = "tags" then .texts []
  else .table (.array [])

def sampleOwn : Expr → Locals → Option (Value × Locals)
  | .constant _ (.int n), vars => some (.int n, vars)
  | .list _ [.constant _ (.text t)], vars => some (.texts [t], vars)
  | _, _ => none

set_option maxRecDepth 20000 in
theorem sample_number : Whole ⟨"n", some "int", some .integer, some "5"⟩ "5" :=
  ⟨.constant .nowhere (.int 5), ⟨_, _, rfl, rfl⟩, _, _, rfl, rfl⟩

set_option maxRecDepth 20000 in
theorem sample_list : Whole ⟨"tags", some "list", some .list, some "[\"new\"]"⟩ "[\"new\"]" :=
  ⟨.list .nowhere [textTree "new"], ⟨_, _, rfl, rfl⟩, _, .inl rfl, _, _, rfl, rfl⟩

set_option maxRecDepth 20000 in
/-- The defaults of the sample stand whole, have values and set no variable. -/
theorem sample_defaults {p : Param} (hp : p ∈ sample.params) {d : Text} (hd : p.fallback = some d) :
    Whole p d ∧ ∀ address, (Handler.answering sample unescape Json.read? sampleOwn address).Settles d := by
  simp only [sample, List.mem_cons, List.not_mem_nil, or_false] at hp
  rcases hp with rfl | rfl | rfl | rfl | rfl
  · exact absurd hd (by simp)
  · obtain rfl := Option.some.inj hd
    refine ⟨sample_number, fun address vars => ⟨.int 5, ?_⟩⟩
    rw [Handler.evalText_readsAs (e := .constant .nowhere (.int 5)) ⟨_, _, rfl, rfl⟩]
    rfl
  · exact absurd hd (by simp)
  · obtain rfl := Option.some.inj hd
    refine ⟨sample_list, fun address vars => ⟨.texts ["new"], ?_⟩⟩
    rw [Handler.evalText_readsAs (e := .list .nowhere [textTree "new"]) ⟨_, _, rfl, rfl⟩]
    rfl
  · exact absurd hd (by simp)

/-- Where a default turns the whole read into a conditional, its own test decides: if the test
fails, nothing that was sent is read. -/
theorem evalText_conditional [CharacterNames] {h : Handler} {p : Param} {test body orelse : Expr}
    {vars vars' : Locals} {v : Value}
    (hdecode : ReadsAs (Server.decode p) (.conditional .nowhere test body orelse))
    (htest : h.eval test vars = some (v, vars')) (hv : v.truth? = some false) :
    h.evalText (Server.decode p) vars = h.eval orelse vars' := by
  rw [Handler.evalText_readsAs hdecode, Handler.eval, htest]
  simp only [bind, Option.bind, hv, Bool.false_eq_true, if_false]

def chosen : Param :=
  ⟨"tags", some "list", some .list, some "[\"new\"] if fresh else [\"old\"]"⟩

def chosenOwn : Expr → Locals → Option (Value × Locals)
  | .name _ _, vars => some (.bool false, vars)
  | .list _ [.constant _ (.text t)], vars => some (.texts [t], vars)
  | _, _ => none

def chosenHandler : Handler :=
  ⟨[("tags", "mine")], ["tags"], Json.read?, chosenOwn⟩

end Pagewright.Wire
