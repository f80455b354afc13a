import Pagewright.Proofs.Builder

namespace Pagewright.Binding

open Syntax

def IsBare (b : Text) (e : Expr) : Prop :=
  ∃ s, e = .name s b

/-- The attribute `method` of the name. -/
def IsMethod (b method : Text) (e : Expr) : Prop :=
  ∃ s s', e = .attribute s (.name s' b) method

/-- Something called `f`, bare or as an attribute of anything. -/
def IsCalled (f : Text) (e : Expr) : Prop :=
  (∃ s, e = .name s f) ∨ ∃ s value, e = .attribute s value f

/-- The decorators that register a function with the binding `b`. -/
inductive Decorates (b : Text) : Expr → Prop where
  | bare (s : Span) : Decorates b (.name s b)
  | method {e : Expr} (h : IsMethod b "backend" e) : Decorates b e
  | call {s : Span} {callee : Expr} {args : List Expr} {keywords : List (KeywordArg Expr)}
      (h : IsMethod b "backend" callee) : Decorates b (.call s callee args keywords)
  | registrar {s s' : Span} {callee : Expr} {args : List Expr}
      {keywords : List (KeywordArg Expr)}
      (h : IsCalled "interop" callee ∨ IsCalled "interopable" callee) :
      Decorates b (.call s callee (.name s' b :: args) keywords)

theorem isName_iff {b : Text} {e : Expr} : isName b e = true ↔ IsBare b e := by
  cases e <;> simp [isName, IsBare]

theorem methodOn_iff {b method : Text} {e : Expr} :
    methodOn? b e = some method ↔ IsMethod b method e := by
  cases e with
  | «attribute» s value name =>
    cases value <;> simp [methodOn?, isName, IsMethod]
  | _ => simp [methodOn?, IsMethod]

theorem calleeName_iff {f : Text} {e : Expr} : calleeName? e = some f ↔ IsCalled f e := by
  cases e <;> simp [calleeName?, IsCalled]

theorem registrar_iff {e : Expr} :
    (calleeName? e).any registrars.contains = true ↔
      IsCalled "interop" e ∨ IsCalled "interopable" e := by
  rw [← calleeName_iff, ← calleeName_iff]
  cases calleeName? e with
  | none => simp
  | some f =>
    rw [Option.any_some, List.contains_iff_mem, registrars, List.mem_cons, List.mem_singleton,
      Option.some_inj, Option.some_inj]

/-- The test of a decorator, as a property of its tree. -/
theorem registers_iff {b : Text} {e : Expr} : registers b e = true ↔ Decorates b e := by
  constructor
  · intro h
    cases e with
    | name s id =>
      have he : id = b := by simpa [registers] using h
      exact he ▸ .bare s
    | «attribute» s value name =>
      exact .method (methodOn_iff.mp (of_decide_eq_true h))
    | call s callee args keywords =>
      rcases Bool.or_eq_true_iff.mp h with hm | hr
      · exact .call (methodOn_iff.mp (of_decide_eq_true hm))
      · obtain ⟨hc, ha⟩ := Bool.and_eq_true_iff.mp hr
        cases args with
        | nil => simp at ha
        | cons a args =>
          obtain ⟨s', rfl⟩ := isName_iff.mp ha
          exact .registrar (registrar_iff.mp hc)
    | _ => simp [registers] at h
  · intro h
    cases h with
    | bare s => simp [registers]
    | method h =>
      have hm := methodOn_iff.mpr h
      obtain ⟨s, s', rfl⟩ := h
      exact decide_eq_true hm
    | call h => exact Bool.or_eq_true_iff.mpr (.inl (decide_eq_true (methodOn_iff.mpr h)))
    | registrar h =>
      refine Bool.or_eq_true_iff.mpr (.inr (Bool.and_eq_true_iff.mpr ⟨registrar_iff.mpr h, ?_⟩))
      simp [isName]

instance (b : Text) (e : Expr) : Decidable (IsBare b e) :=
  decidable_of_iff _ isName_iff

instance (b method : Text) (e : Expr) : Decidable (IsMethod b method e) :=
  decidable_of_iff _ methodOn_iff

instance (f : Text) (e : Expr) : Decidable (IsCalled f e) :=
  decidable_of_iff _ calleeName_iff

instance (b : Text) (e : Expr) : Decidable (Decorates b e) :=
  decidable_of_iff _ registers_iff

/-- One thing that a statement says about a binding. A prop comes with its value, or with the
reason why it has none. -/
inductive Registration where
  | component (path : Text)
  | prop (key : Text) (value : Except PropFault Json)
  | route (function : Text)

namespace Registration

def component? : Registration → Option Text
  | .component path => some path
  | _ => none

def prop? : Registration → Option (Text × Json)
  | .prop key (.ok v) => some (key, v)
  | _ => none

def route? : Registration → Option Text
  | .route f => some f
  | _ => none

def unsupported? : Registration → Option Failure
  | .prop key (.error fault) => some (.badProp key fault)
  | _ => none

/-- The prop that a keyword argument asks for; one without a name is shown as two stars. -/
def ofKeyword (source : Source) (k : KeywordArg Expr) : Registration :=
  match k.name with
  | some key => .prop key (literal source k.value)
  | none => .prop "**" (.error .notKeyword)

def ofArgument? : Expr → Option Registration
  | .name _ id => some (.route id)
  | _ => none

/-- What one statement says. Only definitions, assignments and calls that stand alone count. -/
def ofStmt (source : Source) (b : Text) : Stmt → List Registration
  | .function _ head _ =>
    if ∃ d ∈ head.decorators, Decorates b d then [.route head.name] else []
  | .assign _ targets (.call _ callee (.constant _ (.text path) :: _) _) =>
    if IsCalled "require_svelte" callee ∧ ∃ t ∈ targets, IsBare b t then [.component path]
    else []
  | .expr _ (.call _ callee args keywords) =>
    if IsMethod b "add_props" callee then keywords.map (ofKeyword source)
    else if IsMethod b "set_apis" callee ∨ IsBare b callee then args.filterMap ofArgument?
    else []
  | _ => []

def inFile (source : Source) (b : Text) : List Registration :=
  source.body.flatMap (ofStmt source b)

/-- What registrations leave: the first prop that cannot be carried; otherwise the lack of a
component; otherwise the last component, every prop in its first place with its last value and
every function in its first place. -/
def outcome (path b : Text) (rs : List Registration) : Except Failure Binding :=
  match rs.findSome? unsupported? with
  | some f => .error f
  | none =>
    match (rs.filterMap component?).getLast? with
    | none => .error (.bindingNotFound b path)
    | some last => .ok
      { component := last
        backend := path
        props := settled (rs.filterMap prop?)
        routes := (rs.filterMap route?).eraseDups }

def add (r : Registrations) : Registration → Except Failure Registrations
  | .component path => .ok { r with component := some path }
  | .prop key (.ok v) => .ok { r with props := r.props ++ [(key, v)] }
  | .prop key (.error fault) => .error (.badProp key fault)
  | .route f => .ok { r with routes := r.routes ++ [f] }

theorem prop_add (source : Source) (k : KeywordArg Expr) (r : Registrations) :
    add r (ofKeyword source k) =
      (Binding.prop source k).map fun p => { r with props := r.props ++ [p] } := by
  obtain ⟨name, value⟩ := k
  cases name with
  | none => rfl
  | some key =>
    cases h : literal source value <;> simp [ofKeyword, Binding.prop, h, add, Except.map]

/-- The props of one call are added together, or none of them if one cannot be carried. -/
theorem props_add (source : Source) (ks : List (KeywordArg Expr)) (r : Registrations) :
    (ks.map (ofKeyword source)).foldlM add r =
      (ks.mapM (Binding.prop source)).map fun ps => { r with props := r.props ++ ps } := by
  induction ks generalizing r with
  | nil => simp [Except.map, pure, Except.pure]
  | cons k ks ih =>
    rw [List.map_cons, List.foldlM_cons, prop_add, List.mapM_cons]
    cases hp : Binding.prop source k with
    | error f => rfl
    | ok p =>
      simp only [Except.map, bind, Except.bind]
      rw [ih]
      cases ks.mapM (Binding.prop source) <;> simp [Except.map, pure, Except.pure]

theorem ofArgument_eq (args : List Expr) :
    args.filterMap ofArgument? = (args.filterMap nameOf?).map .route := by
  rw [List.map_filterMap]
  congr 1
  funext e
  cases e <;> rfl

theorem routes_add (names : List Text) (r : Registrations) :
    (names.map .route).foldlM add r = .ok { r with routes := r.routes ++ names } := by
  induction names generalizing r with
  | nil => simp [pure, Except.pure]
  | cons x names ih =>
    rw [List.map_cons, List.foldlM_cons]
    simp only [add, bind, Except.bind]
    rw [ih]
    simp

theorem requiredComponent_call (s s' : Span) (callee : Expr) (path : Text) (args : List Expr)
    (keywords : List (KeywordArg Expr)) :
    requiredComponent? (.call s callee (.constant s' (.text path) :: args) keywords) =
      if IsCalled "require_svelte" callee then some path else none := by
  by_cases hc : IsCalled "require_svelte" callee
  · rw [if_pos hc]
    exact if_pos (calleeName_iff.mpr hc)
  · rw [if_neg hc]
    exact if_neg (mt calleeName_iff.mp hc)

/-- An assignment from a call with a path adds the component at that path. -/
theorem component_add (source : Source) (b : Text) (span s s' : Span) (targets : List Expr)
    (callee : Expr) (path : Text) (args : List Expr) (keywords : List (KeywordArg Expr))
    (r : Registrations) :
    let value := Expr.call s callee (.constant s' (.text path) :: args) keywords
    scan source b r (.assign span targets value) =
      (ofStmt source b (.assign span targets value)).foldlM add r := by
  have ht : targets.any (isName b) = true ↔ ∃ t ∈ targets, IsBare b t := by
    simp [List.any_eq_true, isName_iff]
  simp only [scan, ofStmt, requiredComponent_call]
  by_cases hc : IsCalled "require_svelte" callee
  · rw [if_pos hc]
    by_cases hb : ∃ t ∈ targets, IsBare b t
    · simp only [if_pos (ht.mpr hb), if_pos (And.intro hc hb)]
      rfl
    · have hn : ¬(IsCalled "require_svelte" callee ∧ ∃ t ∈ targets, IsBare b t) :=
        fun h => hb h.2
      simp only [if_neg (mt ht.mp hb), if_neg hn]
      rfl
  · have hn : ¬(IsCalled "require_svelte" callee ∧ ∃ t ∈ targets, IsBare b t) :=
      fun h => hc h.1
    rw [if_neg hc, if_neg hn]
    rfl

/-- A call adds what its statement registers. -/
theorem call_add (source : Source) (b : Text) (span s : Span) (callee : Expr) (args : List Expr)
    (keywords : List (KeywordArg Expr)) (r : Registrations) :
    scan source b r (.expr span (.call s callee args keywords)) =
      (ofStmt source b (.expr span (.call s callee args keywords))).foldlM add r := by
  by_cases hp : IsMethod b "add_props" callee
  · have hs : scan source b r (.expr span (.call s callee args keywords)) =
        (keywords.mapM (Binding.prop source)).map fun ps => { r with props := r.props ++ ps } :=
      (if_pos (methodOn_iff.mpr hp)).trans (by cases keywords.mapM (Binding.prop source) <;> rfl)
    rw [hs, ofStmt, if_pos hp, props_add]
  · by_cases ha : IsMethod b "set_apis" callee ∨ IsBare b callee
    · have hs : scan source b r (.expr span (.call s callee args keywords)) =
          .ok { r with routes := r.routes ++ args.filterMap nameOf? } := by
        refine (if_neg (mt methodOn_iff.mp hp)).trans (if_pos ?_)
        exact Bool.or_eq_true_iff.mpr
          (ha.imp (fun h => decide_eq_true (methodOn_iff.mpr h)) isName_iff.mpr)
      rw [hs, ofStmt, if_neg hp, if_pos ha, ofArgument_eq, routes_add]
    · have hs : scan source b r (.expr span (.call s callee args keywords)) = .ok r := by
        refine (if_neg (mt methodOn_iff.mp hp)).trans (if_neg fun h => ha ?_)
        exact (Bool.or_eq_true_iff.mp h).imp
          (fun h => methodOn_iff.mp (of_decide_eq_true h)) isName_iff.mp
      rw [hs, ofStmt, if_neg hp, if_neg ha]
      rfl

/-- Scanning a statement adds what the statement says. -/
theorem scan_add (source : Source) (b : Text) (s : Stmt) (r : Registrations) :
    scan source b r s = (ofStmt source b s).foldlM add r := by
  cases s with
  | function span head body =>
    have hd : head.decorators.any (registers b) = true ↔
        ∃ d ∈ head.decorators, Decorates b d := by
      simp [List.any_eq_true, registers_iff]
    by_cases h : ∃ d ∈ head.decorators, Decorates b d
    · simp only [scan, ofStmt, if_pos h, if_pos (hd.mpr h)]
      rfl
    · simp only [scan, ofStmt, if_neg h, if_neg (mt hd.mp h)]
      rfl
  | assign span targets value =>
    -- Only a call whose first argument is a text can require a component.
    cases value with
    | call s callee args keywords =>
      cases args with
      | nil => rfl
      | cons e args =>
        cases e with
        | constant s' c =>
          cases c with
          | text path => exact component_add source b span s s' targets callee path args keywords r
          | _ => rfl
        | _ => rfl
    | _ => rfl
  | expr span value =>
    cases value with
    | call s callee args keywords => exact call_add source b span s callee args keywords r
    | _ => rfl
  | _ => rfl

/-- Scanning a file adds what the file says. -/
theorem registrations_add (source : Source) (b : Text) :
    registrations source b = (inFile source b).foldlM add ⟨none, [], []⟩ := by
  have h (ss : List Stmt) (r : Registrations) :
      ss.foldlM (scan source b) r = (ss.flatMap (ofStmt source b)).foldlM add r := by
    induction ss generalizing r with
    | nil => rfl
    | cons s ss ih =>
      rw [List.foldlM_cons, List.flatMap_cons, List.foldlM_append, scan_add]
      congr 1
      funext r'
      exact ih r'
  exact h source.body _

/-- Adding registrations one by one stops at the first prop that cannot be carried. -/
theorem add_all (rs : List Registration) (r : Registrations) :
    rs.foldlM add r =
      match rs.findSome? unsupported? with
      | some f => .error f
      | none => .ok
        { component := (rs.filterMap component?).getLast?.or r.component
          props := r.props ++ rs.filterMap prop?
          routes := r.routes ++ rs.filterMap route? } := by
  induction rs generalizing r with
  | nil => simp [pure, Except.pure]
  | cons x rs ih =>
    rw [List.foldlM_cons]
    cases x with
    | component path =>
      simp only [add, bind, Except.bind]
      rw [ih]
      simp only [List.findSome?_cons, List.filterMap_cons, unsupported?, component?, prop?, route?]
      cases hl : (rs.filterMap component?).getLast? <;> simp [List.getLast?_cons, hl]
    | prop key value =>
      cases value with
      | error fault => rfl
      | ok v =>
        simp only [add, bind, Except.bind]
        rw [ih]
        simp only [List.findSome?_cons, List.filterMap_cons, unsupported?, component?, prop?,
          route?, List.append_assoc, List.singleton_append]
    | route f =>
      simp only [add, bind, Except.bind]
      rw [ih]
      simp only [List.findSome?_cons, List.filterMap_cons, unsupported?, component?, prop?,
        route?, List.append_assoc, List.singleton_append]

/-- The binding that some registrations describe, built prop by prop and function by function. -/
theorem ofSource_eq (source : Source) (b : Text) :
    Binding.ofSource source b = outcome source.path b (inFile source b) := by
  unfold Binding.ofSource outcome
  rw [registrations_add, add_all]
  cases (inFile source b).findSome? unsupported? with
  | some f => rfl
  | none =>
    simp only [Option.or_none, List.nil_append, bind, Except.bind]
    cases ((inFile source b).filterMap component?).getLast? with
    | none => rfl
    | some last =>
      have hp := addProps_settled (new last source.path) [] ((inFile source b).filterMap prop?) rfl
      have hr := addRoutes_eraseDups ((new last source.path).addProps
        ((inFile source b).filterMap prop?)) [] ((inFile source b).filterMap route?)
        (by rw [hp]; rfl)
      simp only [pure, Except.pure]
      rw [hr, hp]
      rfl

/-- Reading a binding from a file gives what the registrations of its statements leave, in the
order of the file. So two files that say the same about a binding give the same binding, whatever
else they hold. -/
theorem ofSource_outcome (source : Source) (b : Text) :
    Binding.ofSource source b = outcome source.path b (inFile source b) ∧
      ∀ other : Source, other.path = source.path → inFile other b = inFile source b →
        Binding.ofSource other b = Binding.ofSource source b :=
  ⟨ofSource_eq source b,
    fun other hp hs => by rw [ofSource_eq other, ofSource_eq source, hp, hs]⟩

def required (b component : Text) : Stmt :=
  .assign ⟨0, 40⟩ [.name ⟨0, 3⟩ b]
    (.call ⟨6, 40⟩ (.name ⟨6, 20⟩ "require_svelte") [.constant ⟨21, 39⟩ (.text component)] [])

def stub (name : Text) (decorators : List Expr) : Stmt :=
  .function ⟨54, 74⟩ ⟨false, name, ⟨[], [], none, [], none⟩, decorators, none, []⟩
    [.pass ⟨70, 74⟩]

def decorated : Source :=
  { path := "src/App.py"
    text := "app = require_svelte(\"./src/App.svelte\")\n@app.backend\ndef load():\n    pass\n"
    body := [required "app" "./src/App.svelte",
      stub "load" [.attribute ⟨42, 53⟩ (.name ⟨42, 45⟩ "app") "backend"]] }

def called : Source :=
  { path := "src/App.py"
    text := "app = require_svelte(\"./src/App.svelte\")\n            \ndef load():\n    pass\napp(load)"
    body := [required "app" "./src/App.svelte", stub "load" [],
      .expr ⟨75, 84⟩ (.call ⟨75, 84⟩ (.name ⟨75, 78⟩ "app") [.name ⟨79, 83⟩ "load"] [])] }

theorem ofStmt_required (source : Source) (b component : Text) :
    ofStmt source b (required b component) = [.component component] := by
  rw [required, ofStmt, if_pos ⟨.inl ⟨_, rfl⟩, _, .head _, _, rfl⟩]

theorem inFile_decorated {source : Source} {b component f : Text} {s s' : Span}
    (h : source.body = [required b component, stub f [.attribute s (.name s' b) "backend"]]) :
    inFile source b = [.component component, .route f] := by
  rw [inFile, h, List.flatMap_cons, List.flatMap_singleton, ofStmt_required, stub, ofStmt,
    if_pos ⟨_, .head _, .method ⟨_, _, rfl⟩⟩]
  rfl

theorem inFile_called {source : Source} {b component f : Text} {s s' s'' : Span}
    (h : source.body = [required b component, stub f [],
      .expr s (.call s (.name s' b) [.name s'' f] [])]) :
    inFile source b = [.component component, .route f] := by
  have hn : ¬∃ d ∈ ([] : List Expr), Decorates b d := fun ⟨_, hm, _⟩ => nomatch hm
  rw [inFile, h, List.flatMap_cons, List.flatMap_cons, List.flatMap_singleton, ofStmt_required, stub,
    ofStmt, if_neg hn, ofStmt, if_neg (fun ⟨_, _, h⟩ => nomatch h), if_pos (.inr ⟨_, rfl⟩)]
  rfl

theorem ofSource_called :
    called.path = decorated.path ∧ inFile called "app" = inFile decorated "app" ∧
      Binding.ofSource called "app" = Binding.ofSource decorated "app" := by
  have hs : inFile called "app" = inFile decorated "app" :=
    (inFile_called rfl).trans (inFile_decorated rfl).symm
  exact ⟨rfl, hs, (ofSource_outcome decorated "app").2 called rfl hs⟩

end Registration
end Pagewright.Binding
