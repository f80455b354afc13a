import Pagewright.Proofs.Names
import Pagewright.Proofs.Wire.Reads

namespace Pagewright.Wire

open Syntax Syntax.Parser Syntax.Expression

def textOf? : Expr → Option Text
  | .constant _ (.text t) => some t
  | _ => none

/-- The texts that a method of the application is called with, unless its name is taken. -/
def appCall? [CharacterNames] (taken : List Text) (method t : Text) : Option (List Text) :=
  match parse t with
  | .ok [.expr _ e] =>
    match e.bare with
    | .call _ (.attribute _ (.name _ id) m) args [] =>
      if id = "app" ∧ id ∉ taken ∧ m = method then args.mapM textOf? else none
    | _ => none
  | _ => none

def decorator (r : Route) : Text :=
  "app.route(\"/api/" ++ r.name ++ "\")"

/-- The addresses that are served, each by the handler of a name, once the handlers of some routes
are defined and the application runs. A handler takes its name after its decorator is evaluated. -/
def load [CharacterNames] : List Route → List Text → Option (List (Text × Text))
  | [], taken => (appCall? taken "run" "app.run()").map fun _ => []
  | r :: rs, taken => do
    let [address] ← appCall? taken "route" (decorator r) | none
    let later ← load rs (r.name :: taken)
    return (address, r.name) :: later

def pageOpener? (booleans : Bool) : Option Text :=
  match parse (Server.bootstrap booleans) with
  | .ok body => body.findSome? fun
    | .function _ head [.withBlock _ _ [(.call _ (.name _ id) _ _, _)] _] =>
      if head.name = "root_" then some id else none
    | _ => none
  | .error _ => none

theorem pageOpener?_eq (booleans : Bool) :
    pageOpener? booleans = some "open".toList := by
  unfold pageOpener? Server.bootstrap
  -- As lists of characters the texts are read much faster than as strings.
  rw [String.toList_ofList, String.toList_ofList, String.toList_ofList]
  cases booleans <;> decide +kernel

/-- Where some names are taken, a parameter is read as it is meant to be, whatever is sent and
whatever the rest of the program does; a default has to stand whole and to have a value. -/
def IsRead [CharacterNames] (taken : List Text) (p : Param) : Prop :=
  ∀ (h : Handler) (vars : Locals), h.assigned = taken →
    (∀ d, p.fallback = some d → Whole p d ∧ ∃ r, h.evalText d vars = some r) →
      h.evalText (Server.decode p) vars = h.intended? p vars

/-- The names that a handler of some routes does not find as the server made them: those of its
own parameters and those of all handlers. -/
def taken (routes : List Route) (r : Route) : List Text :=
  r.params.map (·.name) ++ routes.map (·.name)

/-- Every name that the server uses means there what the server made it mean. -/
structure Hygienic [CharacterNames] (routes : List Route) : Prop where
  served : load routes [] = some (routes.map fun r => ("/api/".toList ++ r.name, r.name))
  page : ∃ id, pageOpener? (routes.any (·.takes .boolean)) = some id ∧ id ∉ routes.map (·.name)
  reads : ∀ r ∈ routes, ∀ p ∈ r.params, IsRead (taken routes r) p

section Loading

variable {method t : Text}

theorem appCall?_readsAs [CharacterNames] (taken ts : List Text)
    (h : ReadsAs t (methodTree (nameTree "app") method (ts.map textTree) [])) :
    appCall? taken method t = if "app".toList ∉ taken then some ts else none := by
  obtain ⟨span, e, hparse, hbare⟩ := h
  have htexts : (ts.map textTree).mapM textOf? = some ts := by
    clear hbare
    induction ts with
    | nil => rfl
    | cons t ts ih =>
      rw [List.map_cons, List.mapM_cons, ih]
      rfl
  unfold appCall?
  rw [hparse]
  simp only [hbare, methodTree, nameTree, true_and, and_true, htexts]

def routeLexemes (address : Text) : List Lexeme :=
  [.word "app", .symbol .dot, .word "route", .symbol .leftParen, .quoted '"' address,
    .symbol .rightParen]

theorem routeLexemes_text (address : Text) : (routeLexemes address).flatMap Lexeme.text =
    "app.route(\"".toList ++ address ++ "\")".toList := by
  simp only [routeLexemes, List.flatMap_cons, Lexeme.text, List.append_assoc]
  rfl

theorem routeLexemes_fit {address : Text} (h : ∀ c ∈ address, Lexeme.isHeld '"' c = true) :
    Lexeme.Fit 0 (routeLexemes address) [] :=
  fit_quoted rfl [.word "app", .symbol .dot, .word "route", .symbol .leftParen] h
    (by decide +kernel) rfl (by decide +kernel)

theorem readsAs_route [CharacterNames] {address : Text}
    (h : ∀ c ∈ address, Lexeme.isHeld '"' c = true) :
    ReadsAs ("app.route(\"".toList ++ address ++ "\")".toList)
      (methodTree (nameTree "app") "route" [textTree address] []) := by
  have hparse := Statement.parse_lexemes (P := fun e => e.bare =
    methodTree (nameTree "app") "route" [textTree address] []) (routeLexemes_fit h) rfl
    (by decide) rfl rfl fun n => ?_
  · rwa [← routeLexemes_text]
  · have hkey : Gives (test (Grammar.level (n + 6)))
        [.literal ⟨.plain, false, false, address⟩, .operator .rightParen, .newline]
        (fun e => e.bare = textTree address) [.operator .rightParen, .newline] :=
      test_text (isHeld_plain h) rfl
    refine test_method (n := n + 4) _ _ (arguments_one (positional_of_test hkey rfl ?_ rfl) rfl) rfl
    rintro k ⟨⟩
    rfl

/-- The decorator of a handler calls the application with the address of the route. -/
theorem readsAs_decorator [CharacterNames] {r : Route} (hr : Identifier.IsWhole r.name) :
    ReadsAs (decorator r)
      (methodTree (nameTree "app") "route" [textTree ("/api/".toList ++ r.name)] []) := by
  have hsplit : "app.route(\"/api/".toList = "app.route(\"".toList ++ "/api/".toList := by
    decide +kernel
  have htext : decorator r =
      "app.route(\"".toList ++ ("/api/".toList ++ r.name) ++ "\")".toList := by
    unfold decorator
    simp only [hsplit, List.append_assoc]
  rw [htext]
  refine readsAs_route fun c hc => ?_
  rcases List.mem_append.mp hc with hc | hc
  · exact List.all_eq_true.mp (by decide +kernel : "/api/".toList.all (Lexeme.isHeld '"') = true) c hc
  · exact hr.isHeld rfl c hc

set_option maxRecDepth 4000 in
theorem readsAs_run [CharacterNames] : ReadsAs "app.run()"
    (methodTree (nameTree "app") "run" [] []) :=
  ⟨_, _, rfl, rfl⟩

/-- Handlers are served as long as none of them takes the name of the application. -/
theorem load_eq [CharacterNames] {routes : List Route}
    (hr : ∀ r ∈ routes, Identifier.IsWhole r.name) (taken : List Text) :
    load routes taken = if "app".toList ∉ taken ++ routes.map (·.name) then
      some (routes.map fun r => ("/api/".toList ++ r.name, r.name)) else none := by
  induction routes generalizing taken with
  | nil =>
    rw [load, appCall?_readsAs taken [] readsAs_run, List.map_nil, List.append_nil]
    split <;> rfl
  | cons r rs ih =>
    have hdecorator := appCall?_readsAs taken ["/api/".toList ++ r.name]
      (readsAs_decorator (hr r (by simp)))
    have hmem : "app".toList ∈ r.name :: taken ++ rs.map (·.name) ↔
        "app".toList ∈ taken ++ (r :: rs).map (·.name) := by
      simp only [List.cons_append, List.map_cons, List.mem_cons, List.mem_append]
      exact or_left_comm
    have hlater := ih (fun r' hr' => hr r' (by simp [hr'])) (r.name :: taken)
    rw [load, hdecorator]
    by_cases htaken : "app".toList ∈ taken
    · have hall : "app".toList ∈ taken ++ (r :: rs).map (·.name) := List.mem_append_left _ htaken
      rw [if_neg (not_not.mpr htaken), if_neg (not_not.mpr hall)]
      rfl
    · rw [if_pos htaken, hlater]
      simp only [hmem]
      split <;> rfl

end Loading

namespace Handler

variable {h : Handler} {p : Param} {id method : Text} {vars : Locals}

theorem isGlobal_taken (hid : id ∈ h.assigned) (global : Text) :
    h.isGlobal global (nameTree id) = false := by
  simp [isGlobal, nameTree, hid]

theorem isQuery_taken (hid : "request".toList ∈ h.assigned) : h.isQuery queryTree = false := by
  rw [queryTree, isQuery, isGlobal_taken hid]
  rfl

theorem cast?_taken [CharacterNames] (hid : id ∈ h.assigned) : h.cast? (nameTree id) = none := by
  unfold cast?
  simp only [isGlobal_taken hid, Bool.false_eq_true, if_false]

section Lost

variable (hown : ∀ e vars, h.own e vars = none)
include hown

/-- Without the request, a read of the query is lost. -/
theorem eval_query_taken [CharacterNames] (hid : "request".toList ∈ h.assigned) (arg : Expr)
    (keywords : List (KeywordArg Expr)) :
    h.eval (methodTree queryTree method [arg] keywords) vars = none := by
  have hquery := isQuery_taken hid
  rw [methodTree, eval, if_neg (by simp [hquery]), if_neg (by simp [isGlobal_query]),
    if_neg (by simp [isGlobal_query]), if_neg (by simp [hquery]), hown]

theorem eval_queryText_taken [CharacterNames] (hid : "request".toList ∈ h.assigned)
    (arg fallback : Expr) :
    h.eval (methodTree queryTree method [arg, fallback] []) vars = none := by
  rw [methodTree, eval, if_neg (by simp [isQuery_taken hid]), hown]

/-- A call of a library is lost with the library. -/
theorem eval_library_taken [CharacterNames] (hid : id ∈ h.assigned) (arg : Expr) :
    h.eval (methodTree (nameTree id) method [arg] []) vars = none := by
  rw [methodTree, eval, if_neg (by simp [isQuery_name]), if_neg (by simp [isGlobal_taken hid]),
    if_neg (by simp [isGlobal_taken hid]), if_neg (by simp [isQuery_name]), hown]

/-- A call of a library is lost with its argument. -/
theorem eval_library_lost [CharacterNames] {arg : Expr} (harg : h.eval arg vars = none) :
    h.eval (methodTree (nameTree id) method [arg] []) vars = none := by
  rw [methodTree, eval, if_neg (by simp [isQuery_name]), harg, hown]
  split
  · rfl
  · split
    · rfl
    · rw [if_neg (by simp [isQuery_name])]

/-- A read through a cast is lost with the cast. -/
theorem eval_cast_taken [CharacterNames] (hid : id ∈ h.assigned) (key : Text) :
    h.eval (methodTree queryTree "get" [textTree key] [⟨some "type", nameTree id⟩]) vars = none := by
  by_cases hrequest : "request".toList ∈ h.assigned
  · exact eval_query_taken hown hrequest _ _
  · have hcast : h.castOf? [⟨some "type".toList, nameTree id⟩] = none := cast?_taken hid
    have hdefault : h.evalDefault [⟨some "type".toList, nameTree id⟩] vars =
        some (.none, vars) := rfl
    rw [methodTree, eval, if_neg (by simp), if_neg (by simp), if_neg (by simp),
      if_pos ⟨isQuery_tree hrequest, rfl⟩, eval_text]
    simp only [bind, Option.bind, hdefault, hcast]

/-- A parameter without a default is lost with any of the names that its read uses. -/
theorem evalText_taken [CharacterNames] (hheld : IsHeld p.name) (hno : p.fallback = none)
    (hid : id ∈ uses p) (htaken : id ∈ h.assigned) : h.evalText (Server.decode p) vars = none := by
  rw [evalText_readsAs (readsAs_decode hheld hno)]
  by_cases hl : p.wireType = some .list
  · rw [uses_list hl, List.mem_singleton] at hid
    rw [readTree, hl]
    exact eval_query_taken hown (hid ▸ htaken) _ _
  · by_cases hf : p.wireType = some .table
    · simp only [uses_table hf, List.mem_cons, List.not_mem_nil, or_false] at hid
      rw [readTree, hf]
      rcases hid with rfl | rfl | rfl
      · exact eval_library_lost hown
          (eval_library_lost hown (eval_queryText_taken hown htaken _ _))
      · exact eval_library_lost hown (eval_library_taken hown htaken _)
      · exact eval_library_taken hown htaken _
    · simp only [uses_cast hl hf, List.mem_cons, List.not_mem_nil, or_false] at hid
      rw [readTree_cast hl hf]
      rcases hid with rfl | rfl
      · exact eval_query_taken hown htaken _ _
      · exact eval_cast_taken hown htaken _

end Lost

/-- Without a default, what is meant to be read is there as soon as JSON is. -/
theorem intended_isSome [CharacterNames] (hno : p.fallback = none)
    (hloads : ∀ t, (h.loads t).isSome) :
    (h.intended? p vars).isSome := by
  unfold intended?
  rw [hno]
  split
  · cases values p.name h.query <;> rfl
  · cases values p.name h.query <;> simp only [Option.isSome_map, hloads]
  · rfl

end Handler

section Taken

variable {p : Param} {names : List Text}

theorem isRead_of_free [CharacterNames] (hp : Identifier.IsWhole p.name)
    (hfree : ∀ id ∈ uses p, id ∉ names) :
    IsRead names p := by
  rintro h vars rfl hdefault
  exact Handler.evalText_intended hfree (isHeld_of_whole hp) hdefault

/-- If a name is taken that the read of a parameter uses, then with a program that adds nothing of
its own the parameter has no value. -/
theorem free_of_isRead [CharacterNames] (hp : Identifier.IsWhole p.name) (hno : p.fallback = none)
    (hread : IsRead names p) : ∀ id ∈ uses p, id ∉ names := by
  intro id hid htaken
  let h : Handler := ⟨[], names, fun _ => some .null, fun _ _ => none⟩
  have hlost : h.evalText (Server.decode p) [] = none :=
    Handler.evalText_taken (fun _ _ => rfl) (isHeld_of_whole hp) hno hid htaken
  have hmeant : (h.intended? p []).isSome := Handler.intended_isSome hno fun _ => rfl
  have heq := hread h [] rfl fun d hd => absurd (hno.symm.trans hd) (by simp)
  rw [← heq, hlost] at hmeant
  cases hmeant

end Taken

/-- Routes that leave the server the names that it still uses once their handlers are defined: no
handler is named like the application or like what opens the page, and no handler and no parameter
beside a parameter is named like what reads that parameter. -/
structure Untaken (routes : List Route) : Prop where
  app : "app".toList ∉ routes.map (·.name)
  page : "open".toList ∉ routes.map (·.name)
  reads : ∀ r ∈ routes, ∀ p ∈ r.params, ∀ id ∈ uses p, id ∉ taken routes r

theorem Untaken.hygienic [CharacterNames] {routes : List Route} (hnamed : ∀ r ∈ routes, r.IsNamed)
    (h : Untaken routes) : Hygienic routes where
  served := by
    rw [load_eq fun r hr => (hnamed r hr).name]
    exact if_pos h.app
  page := ⟨_, pageOpener?_eq _, h.page⟩
  reads r hr p hp := isRead_of_free ((hnamed r hr).params p hp) (h.reads r hr p hp)

theorem Hygienic.app [CharacterNames] {routes : List Route} (hnamed : ∀ r ∈ routes, r.IsNamed)
    (h : Hygienic routes) : "app".toList ∉ routes.map (·.name) := by
  intro happ
  have hserved := h.served
  rw [load_eq fun r hr => (hnamed r hr).name, List.nil_append, if_neg (not_not.mpr happ)] at hserved
  cases hserved

theorem Hygienic.opener [CharacterNames] {routes : List Route} (h : Hygienic routes) :
    "open".toList ∉ routes.map (·.name) := by
  obtain ⟨id, hid, hfree⟩ := h.page
  rw [pageOpener?_eq] at hid
  exact Option.some.inj hid ▸ hfree

theorem handler_text (r : Route) : Server.handler r = "@" ++ decorator r ++ "\nasync def " ++ r.name
    ++ "():\n" ++ r.params.flatMap (Server.prologueLine r.indent) ++ Server.bodyText r := by
  unfold Server.handler decorator
  have hsign : "@app.route(\"/api/".toList = "@".toList ++ "app.route(\"/api/".toList := by
    decide +kernel
  have hdef : "\")\nasync def ".toList = "\")".toList ++ "\nasync def ".toList := by decide +kernel
  simp only [hsign, hdef, List.append_assoc]

theorem footer_text : Server.footer = "\n\n" ++ "app.run()" ++ "\n" := by
  decide +kernel

end Pagewright.Wire
