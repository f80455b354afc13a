import Mathlib.Data.List.Forall2
import Pagewright.Project
import Pagewright.Proofs.Registration
import Pagewright.Proofs.Task

namespace Pagewright

open Syntax

namespace Source

def Defines (name : Text) (t : Stmt) : Prop :=
  ∃ span head body, t = .function span head body ∧ head.name = name

/-- A function of the name stands at the top level. -/
def HasFunction (s : Source) (name : Text) : Prop :=
  ∃ t ∈ s.body, Defines name t

/-- The last function of the name at the top level. -/
def LastFunction (s : Source) (name : Text) (d : Definition) : Prop :=
  d.name = name ∧ ∃ before after, s.body = before ++ .function d.span d.head d.body :: after ∧
    ∀ t ∈ after, ¬Defines name t

theorem ofStmt?_eq_some_iff {t : Stmt} {d : Definition} :
    Definition.ofStmt? t = some d ↔ t = .function d.span d.head d.body := by
  obtain ⟨span, head, body⟩ := d
  cases t <;> simp [Definition.ofStmt?]

/-- The function that a statement defines, if it has the name. -/
def named? (name : Text) (t : Stmt) : Option Definition :=
  (Definition.ofStmt? t).filter (·.name = name)

theorem named?_eq_some_iff {name : Text} {t : Stmt} {d : Definition} :
    named? name t = some d ↔ t = .function d.span d.head d.body ∧ d.name = name := by
  rw [named?, Option.filter_eq_some_iff, ofStmt?_eq_some_iff, decide_eq_true_eq]

theorem named?_eq_none_iff {name : Text} {t : Stmt} : named? name t = none ↔ ¬Defines name t := by
  rw [Option.eq_none_iff_forall_ne_some, Defines]
  constructor
  · rintro h ⟨span, head, body, rfl, hn⟩
    exact h ⟨span, head, body⟩ (named?_eq_some_iff.mpr ⟨rfl, hn⟩)
  · intro h d hd
    obtain ⟨ht, hn⟩ := named?_eq_some_iff.mp hd
    exact h ⟨d.span, d.head, d.body, ht, hn⟩

theorem definition?_eq (s : Source) (name : Text) :
    s.definition? name = s.body.reverse.findSome? (named? name) := by
  rw [definition?, definitions, List.filter_filterMap, List.getLast?_filterMap]
  rfl

theorem definition?_eq_none_iff {s : Source} {name : Text} :
    s.definition? name = none ↔ ¬s.HasFunction name := by
  simp [definition?_eq, named?_eq_none_iff, HasFunction]

/-- Of several functions of a name the last one is looked up. -/
theorem definition?_eq_some_iff {s : Source} {name : Text} {d : Definition} :
    s.definition? name = some d ↔ s.LastFunction name d := by
  rw [definition?_eq, List.findSome?_eq_some_iff]
  constructor
  · rintro ⟨after, t, before, hb, ht, hafter⟩
    obtain ⟨rfl, hn⟩ := named?_eq_some_iff.mp ht
    refine ⟨hn, before.reverse, after.reverse, ?_, fun t ht => ?_⟩
    · simpa using congrArg List.reverse hb
    · exact named?_eq_none_iff.mp (hafter t (List.mem_reverse.mp ht))
  · rintro ⟨hn, before, after, hb, hafter⟩
    refine ⟨after.reverse, _, before.reverse, ?_, named?_eq_some_iff.mpr ⟨rfl, hn⟩, fun t ht => ?_⟩
    · simp [hb]
    · exact named?_eq_none_iff.mpr (hafter t (List.mem_reverse.mp ht))

theorem LastFunction.hasFunction {s : Source} {name : Text} {d : Definition}
    (h : s.LastFunction name d) : s.HasFunction name := by
  obtain ⟨hn, before, after, hb, -⟩ := h
  exact ⟨.function d.span d.head d.body, by simp [hb], _, _, _, rfl, hn⟩

theorem HasFunction.last {s : Source} {name : Text} (h : s.HasFunction name) :
    ∃ d, s.LastFunction name d := by
  cases hd : s.definition? name with
  | none => exact absurd h (definition?_eq_none_iff.mp hd)
  | some d => exact ⟨d, definition?_eq_some_iff.mp hd⟩

end Source

namespace Extraction

variable {s : Source} {names : List Text}

theorem routeOf_eq_ok_iff {name : Text} {r : Route} :
    routeOf s name = .ok r ↔ ∃ d, s.LastFunction name d ∧ r = d.route s := by
  rw [routeOf]
  cases hd : s.definition? name with
  | none =>
    have hn := Source.definition?_eq_none_iff.mp hd
    simp only [reduceCtorEq, false_iff]
    rintro ⟨d, h, -⟩
    exact hn h.hasFunction
  | some d =>
    simp only [Except.ok.injEq, ← Source.definition?_eq_some_iff, hd, Option.some.injEq]
    constructor
    · rintro rfl
      exact ⟨d, rfl, rfl⟩
    · rintro ⟨_, rfl, rfl⟩
      rfl

theorem routeOf_eq_error_iff {name : Text} {f : Failure} :
    routeOf s name = .error f ↔ ¬s.HasFunction name ∧ f = .functionNotFound name := by
  rw [routeOf, ← Source.definition?_eq_none_iff]
  cases s.definition? name <;> simp [eq_comm]

section Lookup

variable {α ε β : Type} {f : α → Except ε β} {xs : List α}

theorem mapM_eq_ok_iff {rs : List β} :
    xs.mapM f = .ok rs ↔ List.Forall₂ (fun x r => f x = .ok r) xs rs := by
  induction xs generalizing rs with
  | nil => cases rs <;> simp [pure, Except.pure]
  | cons x xs ih =>
    rw [List.mapM_cons]
    cases hf : f x with
    | error e => cases rs <;> simp [hf, bind, Except.bind]
    | ok r =>
      cases hfs : xs.mapM f with
      | error e =>
        have hn : ∀ qs, ¬List.Forall₂ (fun x r => f x = .ok r) xs qs := fun qs hqs => by
          simp [ih.mpr hqs] at hfs
        cases rs <;> simp [hf, hn, bind, Except.bind]
      | ok qs =>
        have hqs := ih.mp hfs
        cases rs with
        | nil => simp [bind, Except.bind, pure, Except.pure]
        | cons r' rs =>
          simp only [bind, Except.bind, pure, Except.pure, Except.ok.injEq, List.cons.injEq,
            List.forall₂_cons, hf, ← ih, hfs]

/-- The first element that fails stops the rest. -/
theorem mapM_eq_error_iff {e : ε} :
    xs.mapM f = .error e ↔ ∃ before x after, xs = before ++ x :: after ∧
      (∀ y ∈ before, ∃ r, f y = .ok r) ∧ f x = .error e := by
  induction xs with
  | nil => simp [pure, Except.pure]
  | cons x xs ih =>
    rw [List.mapM_cons]
    cases hf : f x with
    | error g =>
      simp only [bind, Except.bind, Except.error.injEq]
      constructor
      · rintro rfl
        exact ⟨[], x, xs, rfl, by simp, hf⟩
      · rintro ⟨_ | ⟨y, before⟩, z, after, hxs, hbefore, hz⟩
        · obtain ⟨rfl, -⟩ := List.cons.inj hxs
          simpa [hf] using hz
        · obtain ⟨rfl, -⟩ := List.cons.inj hxs
          simpa [hf] using hbefore x (by simp)
    | ok r =>
      have hrest : (do let rs ← xs.mapM f; pure (r :: rs)) = .error e ↔ xs.mapM f = .error e := by
        cases xs.mapM f <;> simp [bind, Except.bind, pure, Except.pure]
      change (do let rs ← xs.mapM f; pure (r :: rs)) = .error e ↔ _
      rw [hrest, ih]
      constructor
      · rintro ⟨before, y, after, rfl, hbefore, hy⟩
        refine ⟨x :: before, y, after, rfl, fun z hz => ?_, hy⟩
        rcases List.mem_cons.mp hz with rfl | hz
        · exact ⟨r, hf⟩
        · exact hbefore z hz
      · rintro ⟨_ | ⟨y, before⟩, z, after, hxs, hbefore, hz⟩
        · obtain ⟨rfl, -⟩ := List.cons.inj hxs
          simp [hf] at hz
        · obtain ⟨rfl, rfl⟩ := List.cons.inj hxs
          exact ⟨before, z, after, rfl, fun y hy => hbefore y (by simp [hy]), hz⟩

end Lookup

/-- Every name is looked up if every one is known. -/
theorem routes_eq_ok_iff {routes : List Route} :
    names.mapM (routeOf s) = .ok routes ↔
      ∃ ds, List.Forall₂ s.LastFunction names ds ∧ routes = ds.map (·.route s) := by
  rw [mapM_eq_ok_iff]
  constructor
  · intro h
    induction h with
    | nil => exact ⟨[], .nil, rfl⟩
    | cons hr _ ih =>
      obtain ⟨d, hd, rfl⟩ := routeOf_eq_ok_iff.mp hr
      obtain ⟨ds, hds, rfl⟩ := ih
      exact ⟨d :: ds, .cons hd hds, rfl⟩
  · rintro ⟨ds, hds, rfl⟩
    rw [List.forall₂_map_right_iff]
    exact hds.imp fun name d hd => routeOf_eq_ok_iff.mpr ⟨d, hd, rfl⟩

/-- The first unknown name is reported. -/
theorem routes_eq_error_iff {f : Failure} :
    names.mapM (routeOf s) = .error f ↔
      ∃ before name after, names = before ++ name :: after ∧ (∀ n ∈ before, s.HasFunction n) ∧
        ¬s.HasFunction name ∧ f = .functionNotFound name := by
  have hknown (n : Text) : (∃ r, routeOf s n = .ok r) ↔ s.HasFunction n := by
    constructor
    · rintro ⟨r, hr⟩
      obtain ⟨d, hd, -⟩ := routeOf_eq_ok_iff.mp hr
      exact hd.hasFunction
    · intro h
      obtain ⟨d, hd⟩ := h.last
      exact ⟨_, routeOf_eq_ok_iff.mpr ⟨d, hd, rfl⟩⟩
  simp only [mapM_eq_error_iff, hknown, routeOf_eq_error_iff]

end Extraction

namespace Source

def wireType? (s : Source) (p : Parameter Expr) : Option WireType :=
  p.hint.bind fun e => WireType.ofHint? (s.slice e.span)

/-- Every parameter that a call binds one by one has a wire type. -/
def Typed (s : Source) (d : Definition) : Prop :=
  ∀ p ∈ d.head.params.positionalOnly ++ d.head.params.regular ++ d.head.params.keywordOnly,
    (s.wireType? p).isSome

theorem param_wireType (s : Source) (p : Parameter Expr) :
    (Definition.param s p).wireType = s.wireType? p := by
  unfold Definition.param wireType?
  dsimp only
  rw [Option.bind_map, Function.comp_def]

theorem unresolved_route (s : Source) (d : Definition) :
    (d.route s).unresolved = [] ↔ s.Typed d := by
  simp only [Route.unresolved, Definition.route, Typed, Parameters.single, List.filter_eq_nil_iff,
    List.forall_mem_map, param_wireType, Bool.not_eq_true, Option.isNone_eq_false_iff]

theorem route_params (s : Source) (d : Definition) :
    (d.route s).params.map (·.name) = d.head.params.single.map (·.name) := by
  rw [Definition.route, List.map_map]
  rfl

end Source

namespace Route

theorem validate_nil : validate [] = .error .noRoutes := rfl

theorem validate_eq_ok_iff {routes : List Route} :
    validate routes = .ok () ↔ routes ≠ [] ∧ ∀ r ∈ routes, r.unresolved = [] := by
  cases routes with
  | nil => simp [validate_nil]
  | cons r rs =>
    rw [validate, List.isEmpty_cons, if_neg (by simp)]
    cases hf : (r :: rs).find? (fun r => !r.unresolved.isEmpty) with
    | none => simpa using List.find?_eq_none.mp hf
    | some q =>
      have hq : q.unresolved ≠ [] := by simpa using List.find?_some hf
      simp only [reduceCtorEq, false_iff, not_and]
      exact fun _ h => hq (h q (List.mem_of_find?_eq_some hf))

/-- The first route with an untyped parameter is reported, with all its parameters. -/
theorem validate_eq_error_iff {routes : List Route} {f : Failure} :
    validate routes = .error f ↔ routes = [] ∧ f = .noRoutes ∨
      ∃ before r after, routes = before ++ r :: after ∧ (∀ q ∈ before, q.unresolved = []) ∧
        r.unresolved ≠ [] ∧ f = .untyped r.name (r.params.map (·.name)) := by
  cases routes with
  | nil =>
    constructor
    · intro h
      exact .inl ⟨rfl, (Except.error.inj h).symm⟩
    · rintro (⟨-, rfl⟩ | ⟨before, r, after, h, -⟩)
      · rfl
      · simp at h
  | cons r rs =>
    rw [validate, List.isEmpty_cons, if_neg (by simp)]
    constructor
    · intro h
      cases hf : (r :: rs).find? (fun r => !r.unresolved.isEmpty) with
      | none => simp [hf] at h
      | some q =>
        simp only [hf, Except.error.injEq] at h
        obtain ⟨hq, before, after, hrs, hbefore⟩ := List.find?_eq_some_iff_append.mp hf
        exact .inr ⟨before, q, after, hrs, by simpa using hbefore, by simpa using hq, h.symm⟩
    · rintro (⟨h, -⟩ | ⟨before, q, after, hrs, hbefore, hq, rfl⟩)
      · simp at h
      · have hf : (r :: rs).find? (fun r => !r.unresolved.isEmpty) = some q :=
          List.find?_eq_some_iff_append.mpr
            ⟨by simpa using hq, before, after, hrs, by simpa using hbefore⟩
        rw [hf]

/-- Routes with an untyped parameter among them are rejected. -/
theorem validate_of_unresolved {routes : List Route} {q : Route} (hq : q ∈ routes)
    (hunresolved : q.unresolved ≠ []) :
    ∃ r ∈ routes, r.unresolved ≠ [] ∧
      validate routes = .error (.untyped r.name (r.params.map (·.name))) := by
  cases hv : validate routes with
  | ok => exact absurd ((validate_eq_ok_iff.mp hv).2 q hq) hunresolved
  | error f =>
    rcases validate_eq_error_iff.mp hv with ⟨rfl, -⟩ | ⟨before, r, after, rfl, -, hr, rfl⟩
    · cases hq
    · exact ⟨r, by simp, hr, rfl⟩

end Route

namespace Extraction

variable {s : Source} {names : List Text}

/-- How an extraction answers. -/
inductive Answers (s : Source) (names : List Text) : Except Failure Extraction → Prop where
  /-- The first unknown function is reported, whatever the functions before it are like. -/
  | unknown {before after : List Text} {name : Text} (hnames : names = before ++ name :: after)
      (hbefore : ∀ n ∈ before, s.HasFunction n) (hname : ¬s.HasFunction name) :
      Answers s names (.error (.functionNotFound name))
  | nothing (hnames : names = []) : Answers s names (.error .noRoutes)
  /-- Once all functions are known, the first with an untyped parameter is reported. -/
  | untyped {before after : List Definition} {d : Definition}
      (hnames : List.Forall₂ s.LastFunction names (before ++ d :: after))
      (hbefore : ∀ e ∈ before, s.Typed e) (hd : ¬s.Typed d) :
      Answers s names (.error (.untyped d.name (d.head.params.single.map (·.name))))
  | routes {ds : List Definition} (hnames : List.Forall₂ s.LastFunction names ds)
      (hne : names ≠ []) (hds : ∀ d ∈ ds, s.Typed d) :
      Answers s names (.ok ⟨ds.map (·.route s), Imports.forwarded s⟩)

theorem ofSource_unknown {f : Failure} (h : names.mapM (routeOf s) = .error f) :
    ofSource s names = .error f := by
  rw [ofSource, h]
  rfl

theorem ofSource_known {routes : List Route} (h : names.mapM (routeOf s) = .ok routes) :
    ofSource s names = (Route.validate routes).map fun _ => ⟨routes, Imports.forwarded s⟩ := by
  rw [ofSource, h]
  cases hv : Route.validate routes <;> simp [bind, Except.bind, Except.map, hv, pure, Except.pure]

/-- Every extraction has an answer. -/
theorem answers_ofSource (s : Source) (names : List Text) : Answers s names (ofSource s names) := by
  cases hr : names.mapM (routeOf s) with
  | error f =>
    rw [ofSource_unknown hr]
    obtain ⟨before, name, after, hnames, hbefore, hname, rfl⟩ := routes_eq_error_iff.mp hr
    exact .unknown hnames hbefore hname
  | ok routes =>
    rw [ofSource_known hr]
    obtain ⟨ds, hds, rfl⟩ := routes_eq_ok_iff.mp hr
    cases hv : Route.validate (ds.map (·.route s)) with
    | ok u =>
      obtain ⟨hne, htyped⟩ := Route.validate_eq_ok_iff.mp hv
      refine .routes hds ?_ fun d hd => (Source.unresolved_route s d).mp ?_
      · rintro rfl
        cases hds
        exact hne rfl
      · exact htyped _ (List.mem_map_of_mem hd)
    | error f =>
      rcases Route.validate_eq_error_iff.mp hv with
        ⟨hnil, rfl⟩ | ⟨before, r, after, heq, hb, hr, rfl⟩
      · obtain rfl := List.map_eq_nil_iff.mp hnil
        cases hds
        exact .nothing rfl
      · obtain ⟨before, ds', rfl, rfl, hrest⟩ := List.map_eq_append_iff.mp heq
        obtain ⟨d, after, rfl, rfl, rfl⟩ := List.map_eq_cons_iff.mp hrest
        rw [Source.route_params]
        refine .untyped hds (fun e he => ?_) fun hd => hr ((Source.unresolved_route s d).mpr hd)
        exact (Source.unresolved_route s e).mp (hb _ (List.mem_map_of_mem he))

/-- What answers an extraction is its result. -/
theorem Answers.eq {r : Except Failure Extraction} (h : Answers s names r) :
    ofSource s names = r := by
  cases h with
  | unknown hnames hbefore hname =>
    exact ofSource_unknown (routes_eq_error_iff.mpr ⟨_, _, _, hnames, hbefore, hname, rfl⟩)
  | nothing hnames =>
    subst hnames
    rfl
  | @untyped before after d hnames hbefore hd =>
    have hv : Route.validate ((before ++ d :: after).map (·.route s)) =
        .error (.untyped d.name (d.head.params.single.map (·.name))) := by
      refine Route.validate_eq_error_iff.mpr (.inr ⟨before.map (·.route s), d.route s,
        after.map (·.route s), by simp, ?_, fun h => hd ((Source.unresolved_route s d).mp h), ?_⟩)
      · exact List.forall_mem_map.mpr fun e he => (Source.unresolved_route s e).mpr (hbefore e he)
      · rw [Source.route_params]
        rfl
    rw [ofSource_known (routes_eq_ok_iff.mpr ⟨_, hnames, rfl⟩), hv]
    rfl
  | @routes ds hnames hne hds =>
    have hv : Route.validate (ds.map (·.route s)) = .ok () := by
      refine Route.validate_eq_ok_iff.mpr ⟨fun h => hne ?_, ?_⟩
      · obtain rfl := List.map_eq_nil_iff.mp h
        cases hnames
        rfl
      · exact List.forall_mem_map.mpr fun d hd => (Source.unresolved_route s d).mpr (hds d hd)
    rw [ofSource_known (routes_eq_ok_iff.mpr ⟨_, hnames, rfl⟩), hv]
    rfl

theorem validate_routes {e : Extraction} (h : ofSource s names = .ok e) :
    Route.validate e.routes = .ok () := by
  cases hr : names.mapM (routeOf s) with
  | error f => simp [ofSource_unknown hr] at h
  | ok routes =>
    rw [ofSource_known hr] at h
    cases hv : Route.validate routes with
    | error f => simp [hv, Except.map] at h
    | ok u =>
      simp only [hv, Except.map, Except.ok.injEq] at h
      rw [← h]
      exact hv

theorem generate_server {e : Extraction} (h : ofSource s names = .ok e) (imports : List Text) :
    Server.generate e.routes imports = .ok (Server.render e.routes imports) := by
  rw [Server.generate, validate_routes h]
  rfl

theorem generate_client {e : Extraction} (h : ofSource s names = .ok e) :
    Client.generate e.routes = .ok (Client.render e.routes) := by
  rw [Client.generate, validate_routes h]
  rfl

end Extraction

namespace Binding

theorem extract_ofSource [CharacterNames] {b : Binding} {w : World} {e : Extraction}
    (h : (b.extract.runIn w).1 = .ok e) : ∃ s, Extraction.ofSource s b.routes = .ok e := by
  rw [extract, Task.runIn_bind] at h
  rcases hs : (Source.load b.backend).runIn w with ⟨_ | s, w'⟩
  · simp [hs] at h
  · rw [hs] at h
    exact ⟨s, by simpa [Task.runIn_bind] using h⟩

theorem server_runIn [CharacterNames] (b : Binding) (w : World) :
    (b.server.runIn w).1 =
      (b.extract.runIn w).1 >>= fun e => Server.generate e.routes e.imports := by
  refine Task.runIn_bind_fst (fun e w => ?_) w
  rw [Task.runIn_bind, Task.runIn_ofExcept]
  cases Server.generate e.routes e.imports <;> rfl

theorem client_runIn [CharacterNames] (b : Binding) (w : World) :
    (b.client.runIn w).1 = (b.extract.runIn w).1 >>= fun e => Client.generate e.routes := by
  refine Task.runIn_bind_fst (fun e w => ?_) w
  rfl

/-- Whatever stops the server or the client of a binding stops its extraction. -/
theorem fails_iff [CharacterNames] (b : Binding) (w : World) (f : Failure) :
    ((b.server.runIn w).1 = .error f ↔ (b.extract.runIn w).1 = .error f) ∧
      ((b.client.runIn w).1 = .error f ↔ (b.extract.runIn w).1 = .error f) := by
  rw [server_runIn, client_runIn]
  cases he : (b.extract.runIn w).1 with
  | error g => simp [bind, Except.bind]
  | ok e =>
    obtain ⟨s, hs⟩ := extract_ofSource he
    simp [bind, Except.bind, Extraction.generate_server hs, Extraction.generate_client hs]

namespace Registration

/-- A function of the name stands under a decorator that registers it. -/
def IsDecorated (s : Source) (b f : Text) : Prop :=
  ∃ span head body, .function span head body ∈ s.body ∧ head.name = f ∧
    ∃ d ∈ head.decorators, Decorates b d

/-- The name is an argument of a call that registers it. -/
def IsListed (s : Source) (b f : Text) : Prop :=
  ∃ span span' callee args keywords, .expr span (.call span' callee args keywords) ∈ s.body ∧
    (IsMethod b "set_apis" callee ∨ IsBare b callee) ∧ ∃ span'', .name span'' f ∈ args

/-- A statement registers a function by a decorator of it or by a call that lists it. -/
theorem route_ofStmt {s : Source} {b f : Text} {t : Stmt} (ht : t ∈ s.body)
    (h : .route f ∈ ofStmt s b t) : IsDecorated s b f ∨ IsListed s b f := by
  unfold ofStmt at h
  split at h
  case h_1 span head body =>
    split at h
    · obtain rfl := Registration.route.inj (List.mem_singleton.mp h)
      exact .inl ⟨span, head, body, ht, rfl, ‹_›⟩
    · cases h
  case h_2 =>
    split at h <;> simp at h
  case h_3 span span' callee args keywords =>
    split at h
    · obtain ⟨k, -, hk⟩ := List.mem_map.mp h
      unfold ofKeyword at hk
      split at hk <;> cases hk
    · split at h
      · obtain ⟨a, ha, hf⟩ := List.mem_filterMap.mp h
        cases a with
        | name span'' id =>
          obtain rfl := Registration.route.inj (Option.some.inj hf)
          exact .inr ⟨span, span', callee, args, keywords, ht, ‹_›, span'', ha⟩
        | _ => cases hf
      · cases h
  case h_4 => cases h

theorem route_inFile {s : Source} {b f : Text} (h : .route f ∈ inFile s b) :
    IsDecorated s b f ∨ IsListed s b f := by
  obtain ⟨t, ht, h⟩ := List.mem_flatMap.mp h
  exact route_ofStmt ht h

theorem IsDecorated.hasFunction {s : Source} {b f : Text} (h : IsDecorated s b f) :
    s.HasFunction f := by
  obtain ⟨span, head, body, hm, hn, -⟩ := h
  exact ⟨_, hm, span, head, body, rfl, hn⟩

theorem route_of_ofSource {s : Source} {name f : Text} {b : Binding}
    (h : Binding.ofSource s name = .ok b) (hf : f ∈ b.routes) :
    IsDecorated s name f ∨ IsListed s name f := by
  rw [ofSource_eq, outcome] at h
  split at h
  · cases h
  · split at h
    · cases h
    · obtain rfl := Except.ok.inj h
      obtain ⟨r, hr, hrf⟩ := List.mem_filterMap.mp (List.mem_eraseDups.mp hf)
      cases r with
      | route g =>
        obtain rfl := Option.some.inj hrf
        exact route_inFile hr
      | _ => cases hrf

end Registration
end Binding

namespace Extraction

theorem functionNotFound_mem {s : Source} {names : List Text} {name : Text}
    (h : ofSource s names = .error (.functionNotFound name)) :
    name ∈ names ∧ ¬s.HasFunction name := by
  have ha := h ▸ answers_ofSource s names
  cases ha with
  | unknown hnames hbefore hname => exact ⟨by simp [hnames], hname⟩

open Binding.Registration in
/-- An extraction answers in one way only. What it accepts has a server and a client, so the
server and the client of a binding fail on the same files with the same failure. A function that
is missing from the file of a binding was named in a call: one under a decorator is never
missing. -/
theorem ofSource_answers [CharacterNames] (s : Source) (names : List Text) :
    (∀ r, ofSource s names = r ↔ Answers s names r) ∧
      (∀ e, ofSource s names = .ok e → ∀ imports,
        (∃ t, Server.generate e.routes imports = .ok t) ∧ ∃ c, Client.generate e.routes = .ok c) ∧
      (∀ (b : Binding) (w : World) (f : Failure),
        (b.server.runIn w).1 = .error f ↔ (b.client.runIn w).1 = .error f) ∧
      ∀ (name : Text) (b : Binding), Binding.ofSource s name = .ok b → ∀ f,
        ofSource s b.routes = .error (.functionNotFound f) →
          IsListed s name f ∧ ¬IsDecorated s name f := by
  refine ⟨fun r => ⟨fun h => h ▸ answers_ofSource s names, Answers.eq⟩, fun e he imports => ?_,
    fun b w f => ?_, fun name b hb f hf => ?_⟩
  · exact ⟨⟨_, generate_server he imports⟩, _, generate_client he⟩
  · obtain ⟨hserver, hclient⟩ := b.fails_iff w f
    exact hserver.trans hclient.symm
  · obtain ⟨hmem, hmissing⟩ := functionNotFound_mem hf
    have hn : ¬IsDecorated s name f := fun h => hmissing h.hasFunction
    exact ⟨(route_of_ofSource hb hmem).resolve_left hn, hn⟩

/-- A file that registers a function with a decorator, and with a call one that it lacks. -/
def lacking : Source :=
  { path := "src/App.py"
    text := "app = require_svelte(\"./src/App.svelte\")
@app.backend
def load(n: int):
    pass
app(lost)
"
    body := [Binding.Registration.required "app" "./src/App.svelte",
      .function ⟨54, 80⟩
        ⟨false, "load",
          ⟨[], [⟨⟨63, 69⟩, "n", some (.name ⟨66, 69⟩ "int"), none⟩], none, [], none⟩,
          [.attribute ⟨42, 53⟩ (.name ⟨42, 45⟩ "app") "backend"], none, []⟩
        [.pass ⟨76, 80⟩],
      .expr ⟨81, 90⟩ (.call ⟨81, 90⟩ (.name ⟨81, 84⟩ "app") [.name ⟨85, 89⟩ "lost"] [])] }

def loaded : Extraction :=
  ⟨[⟨"load", [⟨"n", some "int", some .integer, none⟩], none, none, ["    pass\n"]⟩], []⟩

open Binding.Registration in
theorem ofSource_answers_lacking :
    Answers lacking ["load"] (.ok loaded) ∧ (∃ t, Server.generate loaded.routes [] = .ok t) ∧
      ofSource lacking ["load", "lost"] = .error (.functionNotFound "lost") ∧
      IsListed lacking "app" "lost" ∧ ¬IsDecorated lacking "app" "lost" := by
  have hloaded : ofSource lacking ["load"] = .ok loaded := rfl
  have hlost : ofSource lacking ["load", "lost"] = .error (.functionNotFound "lost") := rfl
  obtain ⟨hanswers, haccepts, -, hlisted⟩ := ofSource_answers lacking ["load"]
  exact ⟨(hanswers _).mp hloaded, (haccepts _ hloaded []).1, hlost,
    hlisted "app" _ rfl "lost" hlost⟩

end Extraction
end Pagewright
