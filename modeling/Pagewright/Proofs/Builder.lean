import Pagewright.Binding

namespace Pagewright.Binding

def lastValue (ps : List (Text × Json)) (key : Text) : Json :=
  ((ps.filter (·.1 = key)).getLast?.map (·.2)).getD .null

/-- Every key once, where it was first set, with the value set last. -/
def settled (ps : List (Text × Json)) : List (Text × Json) :=
  (ps.map (·.1)).eraseDups.map fun key => (key, lastValue ps key)

theorem eraseDups_snoc (xs : List Text) (x : Text) :
    (xs ++ [x]).eraseDups = if x ∈ xs then xs.eraseDups else xs.eraseDups ++ [x] := by
  rw [List.eraseDups_append]
  by_cases h : x ∈ xs
  · simp [List.removeAll, h]
  · simp [List.removeAll, h, List.eraseDups_cons]

theorem lastValue_snoc (ps : List (Text × Json)) (key k : Text) (v : Json) :
    lastValue (ps ++ [(k, v)]) key = if k = key then v else lastValue ps key := by
  by_cases h : k = key <;> simp [lastValue, List.filter_append, h]

theorem setEntry_absent {k : Text} {v : Json} {es : List (Text × Json)}
    (h : k ∉ es.map (·.1)) : setEntry k v es = es ++ [(k, v)] := by
  induction es with
  | nil => rfl
  | cons e es ih =>
    obtain ⟨k', v'⟩ := e
    simp only [List.map_cons, List.mem_cons, not_or] at h
    have hne : k' ≠ k := fun he => h.1 he.symm
    simp [setEntry, hne, ih h.2]

/-- Setting a key that is listed once changes its value and nothing else. -/
theorem setEntry_listed {k : Text} {v : Json} {ks : List Text} {f : Text → Json}
    (hn : ks.Nodup) (hk : k ∈ ks) :
    setEntry k v (ks.map fun key => (key, f key)) =
      ks.map fun key => (key, if k = key then v else f key) := by
  induction ks with
  | nil => simp at hk
  | cons k' ks ih =>
    obtain ⟨hnew, hn⟩ := List.nodup_cons.mp hn
    by_cases he : k' = k
    · subst k'
      have hrest : ∀ key ∈ ks, k ≠ key := fun key hm he => hnew (he ▸ hm)
      simp only [List.map_cons, setEntry, ↓reduceIte, List.cons.injEq, true_and]
      exact List.map_congr_left fun key hm => by simp [hrest key hm]
    · have hm : k ∈ ks := by
        rcases List.mem_cons.mp hk with h | h
        · exact absurd h.symm he
        · exact h
      have hne : k ≠ k' := fun h => he h.symm
      simp [setEntry, he, hne, ih hn hm]

theorem eraseDups_nodup (xs : List Text) : xs.eraseDups.Nodup := by
  match xs with
  | [] => simp
  | x :: xs =>
    rw [List.eraseDups_cons, List.nodup_cons]
    exact ⟨by simp [List.mem_eraseDups], eraseDups_nodup _⟩
termination_by xs.length
decreasing_by exact Nat.lt_succ_of_le (List.length_filter_le _ _)

theorem settled_keys (ps : List (Text × Json)) :
    (settled ps).map (·.1) = (ps.map (·.1)).eraseDups := by
  simp [settled, Function.comp_def]

/-- A further setting keeps the place of its key, or adds it at the end. -/
theorem settled_snoc (ps : List (Text × Json)) (k : Text) (v : Json) :
    settled (ps ++ [(k, v)]) = setEntry k v (settled ps) := by
  have hlast : settled (ps ++ [(k, v)]) = ((ps ++ [(k, v)]).map (·.1)).eraseDups.map fun key =>
      (key, if k = key then v else lastValue ps key) :=
    List.map_congr_left fun key _ => by rw [lastValue_snoc]
  rw [hlast, List.map_append, List.map_singleton, eraseDups_snoc]
  by_cases h : k ∈ ps.map (·.1)
  · rw [if_pos h]
    exact (setEntry_listed (eraseDups_nodup _) (List.mem_eraseDups.mpr h)).symm
  · have hm : k ∉ (settled ps).map (·.1) := by
      rw [settled_keys, List.mem_eraseDups]
      exact h
    rw [if_neg h, setEntry_absent hm, List.map_append, List.map_singleton, if_pos rfl]
    congr 1
    apply List.map_congr_left
    intro key hkey
    have hne : ¬k = key := fun he => h (he ▸ List.mem_eraseDups.mp hkey)
    rw [if_neg hne]

/-- Setting props one after the other settles them, whatever was settled before. -/
theorem addProps_settled (b : Binding) (before ps : List (Text × Json))
    (hb : b.props = settled before) :
    b.addProps ps = { b with props := settled (before ++ ps) } := by
  induction ps generalizing b before with
  | nil => simp [addProps, ← hb]
  | cons p ps ih =>
    obtain ⟨k, v⟩ := p
    have hstep : (b.addProp k v).props = settled (before ++ [(k, v)]) := by
      rw [settled_snoc, ← hb]
      rfl
    have hrest := ih (b.addProp k v) (before ++ [(k, v)]) hstep
    simpa [addProps, addProp] using hrest

theorem addRoute_eraseDups {b : Binding} {before : List Text} (x : Text)
    (hb : b.routes = before.eraseDups) :
    b.addRoute x = { b with routes := (before ++ [x]).eraseDups } := by
  have hc : b.routes.contains x = decide (x ∈ before) := by
    simp [hb, List.contains_eq_mem, List.mem_eraseDups]
  rw [addRoute, hc, eraseDups_snoc, ← hb]
  by_cases h : x ∈ before <;> simp [h]

/-- Registering functions one after the other keeps the first registration of each. -/
theorem addRoutes_eraseDups (b : Binding) (before names : List Text)
    (hb : b.routes = before.eraseDups) :
    b.addRoutes names = { b with routes := (before ++ names).eraseDups } := by
  induction names generalizing b before with
  | nil => simp [addRoutes, ← hb]
  | cons x names ih =>
    have hrest := ih (b.addRoute x) (before ++ [x]) (by rw [addRoute_eraseDups x hb])
    rw [addRoute_eraseDups x hb] at hrest
    simpa [addRoutes, addRoute_eraseDups x hb] using hrest

/-- A call that sets props or registers functions, one of them or several. -/
inductive Call where
  | addProp (key : Text) (value : Json)
  | addProps (props : List (Text × Json))
  | addRoute (name : Text)
  | addRoutes (names : List Text)

namespace Call

def run (b : Binding) : Call → Binding
  | .addProp key value => b.addProp key value
  | .addProps props => b.addProps props
  | .addRoute name => b.addRoute name
  | .addRoutes names => b.addRoutes names

def props : Call → List (Text × Json)
  | .addProp key value => [(key, value)]
  | .addProps props => props
  | .addRoute _ | .addRoutes _ => []

def routes : Call → List Text
  | .addRoute name => [name]
  | .addRoutes names => names
  | .addProp _ _ | .addProps _ => []

/-- One call settles its props after those before it, and its functions after theirs. -/
theorem run_settled {b : Binding} {ps : List (Text × Json)} {names : List Text} (c : Call)
    (hp : b.props = settled ps) (hr : b.routes = names.eraseDups) :
    c.run b = { b with
      props := settled (ps ++ c.props), routes := (names ++ c.routes).eraseDups } := by
  cases c with
  | addProp key value =>
    have h : b.addProp key value = _ := addProps_settled b ps [(key, value)] hp
    simpa [run, props, routes, ← hr] using h
  | addProps kvs => simpa [run, props, routes, ← hr] using addProps_settled b ps kvs hp
  | addRoute name =>
    simpa [run, props, routes, ← hp] using addRoute_eraseDups name hr
  | addRoutes more => simpa [run, props, routes, ← hp] using addRoutes_eraseDups b names more hr

theorem foldl_run {b : Binding} {ps : List (Text × Json)} {names : List Text} (calls : List Call)
    (hp : b.props = settled ps) (hr : b.routes = names.eraseDups) :
    calls.foldl run b = { b with
      props := settled (ps ++ calls.flatMap props)
      routes := (names ++ calls.flatMap routes).eraseDups } := by
  induction calls generalizing b ps names with
  | nil => simp [← hp, ← hr]
  | cons c calls ih =>
    rw [List.foldl_cons, c.run_settled hp hr, ih rfl rfl]
    simp

end Call

def ofCalls (component backend : Text) (calls : List Call) : Binding :=
  calls.foldl Call.run (new component backend)

theorem ofCalls_append (component backend : Text) (calls later : List Call) :
    ofCalls component backend (calls ++ later) =
      later.foldl Call.run (ofCalls component backend calls) :=
  List.foldl_append

theorem ofCalls_eq (component backend : Text) (calls : List Call) :
    ofCalls component backend calls =
      { component, backend
        props := settled (calls.flatMap Call.props)
        routes := (calls.flatMap Call.routes).eraseDups } := by
  have hp : (new component backend).props = settled [] := rfl
  have hr : (new component backend).routes = [].eraseDups := rfl
  have h := Call.foldl_run calls hp hr
  simpa [ofCalls, new] using h

theorem eraseDups_append_of_subset {xs ys : List Text} (h : ys ⊆ xs) :
    (xs ++ ys).eraseDups = xs.eraseDups := by
  have hnone : ys.removeAll xs = [] := by
    simpa [List.removeAll, List.filter_eq_nil_iff] using fun y hy => h hy
  rw [List.eraseDups_append, hnone, List.eraseDups_nil, List.append_nil]

/-- A binding is settled by its calls: it keeps its component and its backend, has every
registered function once, where it was first registered, and every key once, where it was first
set, with the value set last. So calls may be split, joined and, when one sets props and the
other registers functions, swapped; a registration that is made again changes nothing. -/
theorem ofCalls_settles (component backend : Text) (calls : List Call) :
    ofCalls component backend calls =
        { component, backend
          props := settled (calls.flatMap Call.props)
          routes := (calls.flatMap Call.routes).eraseDups } ∧
      (ofCalls component backend calls).routes.Nodup ∧
      ((ofCalls component backend calls).props.map (·.1)).Nodup ∧
      (∀ others, others.flatMap Call.props = calls.flatMap Call.props →
        others.flatMap Call.routes = calls.flatMap Call.routes →
        ofCalls component backend others = ofCalls component backend calls) ∧
      (∀ ps qs later, ofCalls component backend (calls ++ .addProps (ps ++ qs) :: later) =
        ofCalls component backend (calls ++ .addProps ps :: .addProps qs :: later)) ∧
      (∀ ns ms later, ofCalls component backend (calls ++ .addRoutes (ns ++ ms) :: later) =
        ofCalls component backend (calls ++ .addRoutes ns :: .addRoutes ms :: later)) ∧
      (∀ c d later, c.routes = [] → d.props = [] →
        ofCalls component backend (calls ++ c :: d :: later) =
          ofCalls component backend (calls ++ d :: c :: later)) ∧
      ∀ c ∈ calls, c.props = [] → ∀ later,
        ofCalls component backend (calls ++ c :: later) =
          ofCalls component backend (calls ++ later) := by
  have hgroup : ∀ others calls : List Call,
      others.flatMap Call.props = calls.flatMap Call.props →
      others.flatMap Call.routes = calls.flatMap Call.routes →
      ofCalls component backend others = ofCalls component backend calls := by
    intro others calls hprops hroutes
    rw [ofCalls_eq, ofCalls_eq, hprops, hroutes]
  refine ⟨ofCalls_eq _ _ _, ?_, ?_, fun others => hgroup others calls, ?_, ?_, ?_, ?_⟩
  · rw [ofCalls_eq]
    exact eraseDups_nodup _
  · rw [ofCalls_eq, settled_keys]
    exact eraseDups_nodup _
  · intro ps qs later
    apply hgroup <;> simp [Call.props, Call.routes]
  · intro ns ms later
    apply hgroup <;> simp [Call.props, Call.routes]
  · intro c d later hc hd
    apply hgroup <;> simp [hc, hd]
  · intro c hc hprops later
    have hroutes : c.routes ⊆ calls.flatMap Call.routes :=
      fun name hname => List.mem_flatMap.mpr ⟨c, hc, hname⟩
    have hagain : ofCalls component backend (calls ++ [c]) = ofCalls component backend calls := by
      rw [ofCalls_eq, ofCalls_eq]
      simp [hprops, eraseDups_append_of_subset hroutes]
    rw [← List.singleton_append, ← List.append_assoc, ofCalls_append, hagain, ← ofCalls_append]

def sampleCalls : List Call :=
  [.addProp "n" (.bool true), .addRoutes ["load", "save"],
    .addProps [("title", .null), ("n", .string "last")], .addRoute "load"]

def sampleSettled : Binding :=
  ⟨"./App.svelte", "App.py", [("n", .string "last"), ("title", .null)], ["load", "save"]⟩

theorem ofCalls_settles_sample :
    ofCalls "./App.svelte" "App.py" sampleCalls = sampleSettled ∧
      ofCalls "./App.svelte" "App.py" (sampleCalls ++ [.addRoutes ["load", "save"]]) =
        sampleSettled := by
  obtain ⟨heq, -, -, -, -, -, -, hagain⟩ := ofCalls_settles "./App.svelte" "App.py" sampleCalls
  have hfirst : ofCalls "./App.svelte" "App.py" sampleCalls = sampleSettled := by
    rw [heq]
    rfl
  have hmem : Call.addRoutes ["load", "save"] ∈ sampleCalls := by simp [sampleCalls]
  have hsame := hagain _ hmem rfl []
  rw [List.append_nil] at hsame
  exact ⟨hfirst, hsame.trans hfirst⟩

end Pagewright.Binding
