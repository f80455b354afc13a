import Pagewright.Proofs.Wire.Template

namespace Pagewright.Wire

open Syntax

/-- The texts of a list, each escaped under the name of the list. -/
def listed (w : Browser) (id : Text) (ts : List Text) : List Text :=
  ts.map fun t => id ++ '=' :: w.escape t

def carried (w : Browser) : Sent → List Text
  | .text t => [t]
  | .number n => [Text.ofInt n]
  | .bool b => [if b then "true" else "false"]
  | .texts ts => ts
  | .table value => [w.stringify value]

/-- The names that no parameter may take from the browser. -/
def IsOpen (vars : List (Text × Sent)) : Prop :=
  vars.lookup "encodeURIComponent".toList = none ∧ vars.lookup "JSON".toList = none

def parts (w : Browser) (sent : Text → Sent) (ps : List Param) : List Text :=
  ps.map fun p => Text.join ['&'] (listed w p.name (carried w (sent p.name)))

def query (w : Browser) (sent : Text → Sent) (ps : List Param) : Text :=
  if ps.isEmpty then [] else '?' :: Text.join ['&'] (parts w sent ps)

variable {w : Browser} {vars : List (Text × Sent)} {q : Template} {e : Script} {id x : Text}

theorem eval_push (c : Char) (p : Template) :
    (p.push c).eval w vars = (p.eval w vars).map (c :: ·) := by
  cases p with
  | last t => simp [Template.push, Template.eval]
  | hole before e later =>
    simp only [Template.push, Template.eval, bind, pure]
    cases (e.eval w vars).bind Sent.written with
    | none => rfl
    | some y => cases later.eval w vars <;> rfl

theorem eval_behind (s : Text) (p : Template) :
    (p.behind s).eval w vars = (p.eval w vars).map (s ++ ·) := by
  induction s with
  | nil => exact Option.map_id'.symm
  | cons c cs ih =>
    have hbehind : p.behind (c :: cs) = (p.behind cs).push c := rfl
    rw [hbehind, eval_push, ih, Option.map_map]
    rfl

/-- A hole adds what its expression is written as. -/
theorem eval_hole (h : (e.eval w vars).bind Sent.written = some x) (q : Template) :
    (Template.hole [] e q).eval w vars = (q.eval w vars).map (x ++ ·) := by
  rw [Template.eval, h]
  cases q.eval w vars <;> rfl

theorem isGlobal_name {global : Text} (h : vars.lookup global = none) :
    (Script.name global).isGlobal global vars = true := by
  simp [Script.isGlobal, h]

theorem eval_escaping (h : (e.eval w vars).bind Sent.written = some x)
    (hg : vars.lookup "encodeURIComponent".toList = none) :
    (escaping e).eval w vars = some (.text (w.escape x)) := by
  rw [escaping, Script.eval, isGlobal_name hg, if_pos rfl, h]
  rfl

/-- A key with an escaped value. -/
theorem eval_carried (h : (e.eval w vars).bind Sent.written = some x)
    (hg : vars.lookup "encodeURIComponent".toList = none) (id : Text) (q : Template) :
    (keyed id (.hole [] (escaping e) q)).eval w vars =
      (q.eval w vars).map (id ++ '=' :: w.escape x ++ ·) := by
  have hhole := eval_hole (x := w.escape x) (by rw [eval_escaping h hg]; rfl) q
  rw [keyed, eval_behind, eval_push, hhole, Option.map_map, Option.map_map]
  refine congrArg (Option.map · _) (funext fun t => ?_)
  simp

theorem mapM_template {p : Template} {param : Text} {ts : List Text} {x : Text → Text}
    (h : ∀ t, p.eval w ((param, .text t) :: vars) = some (x t)) :
    (ts.mapM fun t => ((Script.template p).eval w ((param, .text t) :: vars)).bind Sent.written) =
      some (ts.map x) := by
  induction ts with
  | nil => rfl
  | cons t ts ih =>
    rw [List.mapM_cons, ih, Script.eval, h]
    rfl

/-- The value of a list whose texts are escaped, each under the name of the list. -/
theorem eval_joining {ts : List Text} (h : vars.lookup id = some (.texts ts))
    (hg : vars.lookup "encodeURIComponent".toList = none) :
    (joining id).eval w vars = some (.text (Text.join ['&'] (listed w id ts))) := by
  have hbody (t : Text) : (keyed id (.hole [] (escaping (.name "v".toList)) (.last []))).eval w
      (("v".toList, .text t) :: vars) = some (id ++ '=' :: w.escape t) := by
    have hv : (("v".toList, Sent.text t) :: vars).lookup "v".toList = some (.text t) :=
      List.lookup_cons_self
    have hg' : (("v".toList, Sent.text t) :: vars).lookup "encodeURIComponent".toList = none := by
      rw [List.lookup_cons, hg]
      rfl
    rw [eval_carried (x := t) (by rw [Script.eval, hv]; rfl) hg' id]
    simp [Template.eval]
  have hmap : (Script.call (.member (.name id) "map".toList) (.arrow "v".toList (.template
      (keyed id (.hole [] (escaping (.name "v".toList)) (.last [])))))).eval w vars =
        some (.texts (listed w id ts)) := by
    rw [Script.eval, if_pos rfl, Script.eval, h, Sent.mapped, mapM_template hbody]
    rfl
  have hjson : ∀ o a, (Script.call o a).isGlobal "JSON" vars = false := fun _ _ => rfl
  rw [joining, Script.eval, hjson, if_neg (by simp), if_pos rfl, hmap]
  · rfl
  · simp

/-- Each parameter adds the texts that carry its value, each under its name. -/
theorem eval_part {p : Param} {ty : WireType} {v : Sent} (hty : p.wireType = some ty)
    (hv : v.HasType ty) (hvars : vars.lookup p.name = some v) (hopen : IsOpen vars) (q : Template) :
    (partTemplate p q).eval w vars =
      (q.eval w vars).map (Text.join ['&'] (listed w p.name (carried w v)) ++ ·) := by
  have hone (x : Text) : Text.join ['&'] (listed w p.name [x]) = p.name ++ '=' :: w.escape x := by
    simp [listed, Text.join]
  have hname : (Script.name p.name).eval w vars = some v := by rw [Script.eval, hvars]
  have hplain {x : Text} (hx : v.written = some x) :
      (keyed p.name (.hole [] (escaping (.name p.name)) q)).eval w vars =
        (q.eval w vars).map (Text.join ['&'] (listed w p.name [x]) ++ ·) := by
    rw [hone]
    exact eval_carried (by rw [hname]; exact hx) hopen.1 _ _
  unfold partTemplate
  rw [hty]
  cases v with
  | text t =>
    cases ty <;> first | exact hv.elim | skip
    exact hplain rfl
  | number n =>
    cases ty <;> first | exact hv.elim | skip
    exact hplain (if_pos hv)
  | bool b =>
    cases ty <;> first | exact hv.elim | skip
    exact hplain rfl
  | texts ts =>
    cases ty <;> first | exact hv.elim | skip
    exact eval_hole (by rw [eval_joining hvars hopen.1]; rfl) q
  | table j =>
    cases ty <;> first | exact hv.elim | skip
    have hjson : (stringified p.name).eval w vars = some (.text (w.stringify j)) := by
      simp only [stringified, Script.eval, isGlobal_name hopen.2, hvars]
      rfl
    rw [carried, hone]
    exact eval_carried (by rw [hjson]; rfl) hopen.1 _ _

/-- The query, behind a mark. -/
theorem eval_query {sent : Text → Sent} {ps : List Param}
    (hps : ∀ p ∈ ps, ∃ ty, p.wireType = some ty ∧ (sent p.name).HasType ty)
    (hvars : ∀ p ∈ ps, vars.lookup p.name = some (sent p.name)) (hopen : IsOpen vars) (mark : Char) :
    (queryTemplate mark ps).eval w vars =
      some (if ps.isEmpty then [] else mark :: Text.join ['&'] (parts w sent ps)) := by
  induction ps generalizing mark with
  | nil => rfl
  | cons p ps ih =>
    obtain ⟨ty, hty, hv⟩ := hps p (by simp)
    have hlater := ih (fun q hq => hps q (by simp [hq])) (fun q hq => hvars q (by simp [hq])) '&'
    rw [queryTemplate, eval_push, eval_part hty hv (hvars p (by simp)) hopen, hlater]
    cases ps with
    | nil => simp [parts, Text.join]
    | cons p' ps => simp [parts, Text.join, List.intercalate_cons_cons]

/-- The address of a call is the path of the route and the query of its parameters. -/
theorem address_eq {r : Route} (sent : Text → Sent) (hname : Identifier.Valid r.name)
    (hparams : ∀ p ∈ r.params, IsName p.name ∧
      ∃ ty, p.wireType = some ty ∧ (sent p.name).HasType ty)
    (hvars : ∀ p ∈ r.params, vars.lookup p.name = some (sent p.name)) (hopen : IsOpen vars) :
    address? w r vars = some ("/api/".toList ++ r.name ++ query w sent r.params) := by
  have hread := isAt_address hname (fun p hp => (hparams p hp).1) isEnd_nil _ (Nat.le_refl _)
  have heval := eval_query (w := w) (fun p hp => (hparams p hp).2) hvars hopen '?'
  unfold address?
  simp only [List.cons_append, hread, addressTemplate, eval_behind, heval]
  rfl

end Pagewright.Wire
