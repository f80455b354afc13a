import Mathlib.Data.List.Forall2
import Pagewright.Proofs.Grammar.Numbers
import Pagewright.Proofs.Registration
import Pagewright.Proofs.Source

namespace Pagewright.Binding

open Syntax Number

mutual

/-- The JSON value that a literal has when the file runs. -/
inductive Denotes : Expr → Json → Prop where
  | none {s : Span} : Denotes (.constant s .none) .null
  | bool {s : Span} {b : Bool} : Denotes (.constant s (.bool b)) (.bool b)
  | text {s : Span} {t : Text} : Denotes (.constant s (.text t)) (.string t)
  | int {s : Span} {n : Nat} {v : Json} (value : ofWhole? n = some v) :
    Denotes (.constant s (.int n)) v
  | float {s : Span} {x : Binary} (isFinite : x.finite? = some x) :
    Denotes (.constant s (.float x)) (.real x)
  | signed {s : Span} {op : UnaryOp} {negative : Bool} {e : Expr} {v : Json}
    (sign : op.negates? = some negative) (value : Signed negative e v) : Denotes (.unary s op e) v
  | list {s : Span} {es : List Expr} {vs : List Json} (items : DenoteAll es vs) :
    Denotes (.list s es) (.array vs)
  | tuple {s : Span} {es : List Expr} {vs : List Json} (items : DenoteAll es vs) :
    Denotes (.tuple s es) (.array vs)
  | dict {s : Span} {es : List (Option Expr × Expr)} {ps : List (Text × Json)}
    (entries : DenoteEntries es ps) : Denotes (.dict s es) (.object (settled ps))

inductive DenoteAll : List Expr → List Json → Prop where
  | nil : DenoteAll [] []
  | cons {e : Expr} {v : Json} {es : List Expr} {vs : List Json} (item : Denotes e v)
    (later : DenoteAll es vs) : DenoteAll (e :: es) (v :: vs)

/-- The entries of a dictionary, each with a constant text as its key. -/
inductive DenoteEntries : List (Option Expr × Expr) → List (Text × Json) → Prop where
  | nil : DenoteEntries [] []
  | cons {s : Span} {key : Text} {e : Expr} {v : Json} {es : List (Option Expr × Expr)}
    {ps : List (Text × Json)} (value : Denotes e v) (later : DenoteEntries es ps) :
    DenoteEntries ((some (.constant s (.text key)), e) :: es) ((key, v) :: ps)

end

mutual

/-- Whether a literal holds a name or an attribute behind a sign, such as `-_1`, whose text without
underscores and blanks reads as a number. -/
def hasSignedReference (t : Text) : Expr → Bool
  | .unary span _ e => e.isReference && (json? (Text.slice t span.start span.stop)).isSome
  | .list _ es | .tuple _ es => anySigned t es
  | .dict _ es => anySignedValue t es
  | _ => false

def anySigned (t : Text) : List Expr → Bool
  | [] => false
  | e :: es => hasSignedReference t e || anySigned t es

def anySignedValue (t : Text) : List (Option Expr × Expr) → Bool
  | [] => false
  | (_, e) :: es => hasSignedReference t e || anySignedValue t es

end

section Signs

variable {t : Text}

theorem anySigned_eq_false {es : List Expr} (h : anySigned t es = false) {e : Expr} (he : e ∈ es) :
    hasSignedReference t e = false := by
  induction es with
  | nil => cases he
  | cons x es ih =>
    obtain ⟨hx, hes⟩ := Bool.or_eq_false_iff.mp h
    rcases List.mem_cons.mp he with rfl | he
    · exact hx
    · exact ih hes he

theorem anySignedValue_eq_false {es : List (Option Expr × Expr)} (h : anySignedValue t es = false)
    {e : Option Expr × Expr} (he : e ∈ es) : hasSignedReference t e.2 = false := by
  induction es with
  | nil => cases he
  | cons x es ih =>
    obtain ⟨k, x⟩ := x
    obtain ⟨hx, hes⟩ := Bool.or_eq_false_iff.mp h
    rcases List.mem_cons.mp he with rfl | he
    · exact hx
    · exact ih hes he

end Signs

/-- The whole numbers and signs of an expression are written in the text, none of the signs
before a name or an attribute that reads as a number. -/
def IsPlain (t : Text) (e : Expr) : Prop :=
  e.Written t ∧ hasSignedReference t e = false

variable {source : Source}

/-- A constant is carried with the value that it denotes. -/
theorem constant_denotes {s : Span} {c : Constant} {v : Json}
    (hplain : IsPlain source.text (.constant s c))
    (h : constantValue (source.slice s) c = .ok v) : Denotes (.constant s c) v := by
  cases c with
  | none =>
    obtain rfl := Except.ok.inj h
    exact .none
  | bool b =>
    obtain rfl := Except.ok.inj h
    exact .bool
  | text t =>
    obtain rfl := Except.ok.inj h
    exact .text
  | float x =>
    cases x with
    | finite n m e =>
      obtain rfl := Except.ok.inj h
      exact .float rfl
    | infinite n => cases h
  | int n =>
    obtain ⟨ts, hshape, hwords⟩ := hplain.1 _ (List.mem_singleton.mpr rfl)
    simp only [constantValue] at h
    split at h
    · rename_i hv
      obtain rfl := Except.ok.inj h
      exact .int (hwords.whole hshape hv)
    · cases h
  | _ => cases h

/-- A number with a sign is carried with the value that the sign and the digits give. -/
theorem unary_denotes {s : Span} {op : UnaryOp} {e : Expr} {v : Json}
    (hplain : IsPlain source.text (.unary s op e)) (h : json? (source.slice s) = some v) :
    Denotes (.unary s op e) v := by
  obtain ⟨ts, hshape, hwords⟩ := hplain.1 _ (List.mem_singleton.mpr rfl)
  have hreference : e.isReference = false := by
    rcases Bool.and_eq_false_iff.mp hplain.2 with hno | hno
    · exact hno
    · rw [show Text.slice source.text s.start s.stop = source.slice s from rfl, h] at hno
      cases hno
  obtain ⟨negative, hsign, hvalue⟩ := hwords.unary hshape hreference h
  exact .signed hsign hvalue

theorem isPlain_item {es : List Expr} {s : Span} (hplain : IsPlain source.text (.list s es))
    {e : Expr} (he : e ∈ es) : IsPlain source.text e := by
  refine ⟨?_, anySigned_eq_false hplain.2 he⟩
  intro x hx
  exact hplain.1 x (mem_partsAll.mpr ⟨e, he, hx⟩)

theorem isPlain_value {es : List (Option Expr × Expr)} {s : Span}
    (hplain : IsPlain source.text (.dict s es)) {e : Option Expr × Expr} (he : e ∈ es) :
    IsPlain source.text e.2 := by
  refine ⟨?_, anySignedValue_eq_false hplain.2 he⟩
  intro x hx
  exact hplain.1 x (mem_partsEntries.mpr ⟨e, he, hx⟩)

theorem map_eq_ok {α β ε : Type} {f : α → β} {x : Except ε α} {y : β} (h : x.map f = .ok y) :
    ∃ a, x = .ok a ∧ f a = y := by
  cases x with
  | error e => cases h
  | ok a => exact ⟨a, rfl, Except.ok.inj h⟩

theorem entryKey?_eq_some {k : Option Expr} {key : Text} (h : entryKey? k = some key) :
    ∃ s, k = some (.constant s (.text key)) := by
  unfold entryKey? at h
  split at h
  · rename_i s key'
    obtain rfl := Option.some.inj h
    exact ⟨s, rfl⟩
  · cases h

mutual

/-- A value that is carried is a literal, with its value. -/
theorem literal_denotes (e : Expr) (v : Json) (hplain : IsPlain source.text e)
    (h : literal source e = .ok v) : Denotes e v := by
  cases e with
  | constant s c =>
    rw [literal] at h
    exact constant_denotes hplain h
  | unary s op e =>
    rw [literal] at h
    split at h
    · rename_i hv
      obtain rfl := Except.ok.inj h
      exact unary_denotes hplain hv
    · cases h
  | list s es =>
    rw [literal] at h
    obtain ⟨vs, hvs, rfl⟩ := map_eq_ok h
    exact .list (literals_denote es vs (fun e he => isPlain_item hplain he) hvs)
  | tuple s es =>
    rw [literal] at h
    obtain ⟨vs, hvs, rfl⟩ := map_eq_ok h
    have hlist : IsPlain source.text (.list s es) := hplain
    exact .tuple (literals_denote es vs (fun e he => isPlain_item hlist he) hvs)
  | dict s es =>
    rw [literal] at h
    obtain ⟨found, hfound, rfl⟩ := map_eq_ok h
    obtain ⟨ps, hps, rfl⟩ := literalEntries_denote es [] found
      (fun e he => isPlain_value hplain he) hfound
    exact .dict hps
  | _ =>
    rw [literal] at h
    · cases h
    all_goals simp

theorem literals_denote (es : List Expr) (vs : List Json)
    (hplain : ∀ e ∈ es, IsPlain source.text e) (h : literals source es = .ok vs) :
    DenoteAll es vs := by
  cases es with
  | nil =>
    obtain rfl := Except.ok.inj h
    exact .nil
  | cons e es =>
    simp only [literals, bind, Except.bind] at h
    split at h
    · cases h
    · rename_i v hv
      split at h
      · cases h
      · rename_i vs' hvs
        obtain rfl := Except.ok.inj h
        refine .cons (literal_denotes e v (hplain e (by simp)) hv) ?_
        exact literals_denote es vs' (fun x hx => hplain x (by simp [hx])) hvs

/-- The entries of a dictionary are set one after the other. -/
theorem literalEntries_denote (es : List (Option Expr × Expr)) (before found : List (Text × Json))
    (hplain : ∀ e ∈ es, IsPlain source.text e.2)
    (h : literalEntries source es (settled before) = .ok found) :
    ∃ ps, DenoteEntries es ps ∧ found = settled (before ++ ps) := by
  cases es with
  | nil =>
    obtain rfl := Except.ok.inj h
    exact ⟨[], .nil, by rw [List.append_nil]⟩
  | cons e es =>
    obtain ⟨k, e⟩ := e
    rw [literalEntries] at h
    split at h
    · cases h
    · rename_i key hkey
      obtain ⟨s, rfl⟩ := entryKey?_eq_some hkey
      simp only [bind, Except.bind] at h
      split at h
      · cases h
      · rename_i v hv
        rw [← settled_snoc] at h
        obtain ⟨ps, hps, rfl⟩ := literalEntries_denote es (before ++ [(key, v)]) found
          (fun x hx => hplain x (by simp [hx])) h
        refine ⟨(key, v) :: ps, .cons (literal_denotes e v (hplain _ List.mem_cons_self) hv) hps, ?_⟩
        rw [List.append_assoc, List.singleton_append]

end

namespace Registration

def keywordsOf (b : Text) : Stmt → List (KeywordArg Expr)
  | .expr _ (.call _ callee _ keywords) => if IsMethod b "add_props" callee then keywords else []
  | _ => []

/-- The keyword arguments of all calls in a file that add props to the binding, in order. -/
def propKeywords (source : Source) (b : Text) : List (KeywordArg Expr) :=
  source.body.flatMap (keywordsOf b)

/-- A keyword argument with a name and a literal gives a prop. -/
structure Carries (k : KeywordArg Expr) (p : Text × Json) : Prop where
  name : k.name = some p.1
  value : Denotes k.value p.2

def isProp : Registration → Bool
  | .prop .. => true
  | _ => false

theorem isProp_ofKeyword (source : Source) (k : KeywordArg Expr) :
    isProp (ofKeyword source k) = true := by
  unfold ofKeyword
  split
  · rfl
  · rfl

theorem isProp_ofArgument {args : List Expr} {r : Registration}
    (h : r ∈ args.filterMap ofArgument?) : isProp r = false := by
  obtain ⟨e, -, he⟩ := List.mem_filterMap.mp h
  unfold ofArgument? at he
  split at he
  · obtain rfl := Option.some.inj he
    rfl
  · cases he

/-- Only keyword arguments of such calls are registered as props. -/
theorem ofStmt_props (source : Source) (b : Text) (s : Stmt) :
    (ofStmt source b s).filter isProp = (keywordsOf b s).map (ofKeyword source) := by
  unfold ofStmt
  split
  · split
    · rfl
    · rfl
  · split
    · rfl
    · rfl
  · rename_i span s callee args keywords
    by_cases hadd : IsMethod b "add_props" callee
    · rw [if_pos hadd, keywordsOf, if_pos hadd]
      apply List.filter_eq_self.mpr
      intro r hr
      obtain ⟨k, -, rfl⟩ := List.mem_map.mp hr
      exact isProp_ofKeyword source k
    · rw [if_neg hadd, keywordsOf, if_neg hadd]
      apply List.filter_eq_nil_iff.mpr
      intro r hr
      split at hr
      · simp [isProp_ofArgument hr]
      · cases hr
  · rename_i hcall
    unfold keywordsOf
    split
    · exact absurd rfl (hcall _ _ _ _ _)
    · rfl

theorem inFile_props (source : Source) (b : Text) :
    (inFile source b).filter isProp = (propKeywords source b).map (ofKeyword source) := by
  rw [inFile, propKeywords, List.filter_flatMap, List.map_flatMap]
  simp only [ofStmt_props]

theorem prop?_eq_none {r : Registration} (h : isProp r = false) : prop? r = none := by
  cases r with
  | prop key value => cases h
  | _ => rfl

/-- What a keyword argument of a parsed file registers: a prop, or nothing that can be carried. -/
theorem ofKeyword_carries {source : Source} {k : KeywordArg Expr}
    (hplain : IsPlain source.text k.value) :
    (∃ p, ofKeyword source k = .prop p.1 (.ok p.2) ∧ Carries k p) ∨
      ∃ key fault, ofKeyword source k = .prop key (.error fault) := by
  obtain ⟨name, value⟩ := k
  cases name with
  | none => exact .inr ⟨_, _, rfl⟩
  | some key =>
    cases hv : literal source value with
    | ok v => exact .inl ⟨(key, v), by rw [ofKeyword, hv], rfl, literal_denotes value v hplain hv⟩
    | error fault => exact .inr ⟨key, fault, by rw [ofKeyword, hv]⟩

/-- Keyword arguments that can all be carried give their props in order. -/
theorem carries_all {source : Source} {ks : List (KeywordArg Expr)}
    (hplain : ∀ k ∈ ks, IsPlain source.text k.value)
    (hall : ∀ k ∈ ks, unsupported? (ofKeyword source k) = none) :
    List.Forall₂ Carries ks ((ks.map (ofKeyword source)).filterMap prop?) := by
  induction ks with
  | nil => exact .nil
  | cons k ks ih =>
    have hlater := ih (fun x hx => hplain x (by simp [hx])) fun x hx => hall x (by simp [hx])
    rcases ofKeyword_carries (hplain k (by simp)) with ⟨p, hp, hcarries⟩ | ⟨key, fault, hf⟩
    · rw [List.map_cons, hp]
      exact .cons hcarries hlater
    · have hnone := hall k (by simp)
      rw [hf] at hnone
      cases hnone

theorem filterMap_isProp (rs : List Registration) :
    rs.filterMap prop? = (rs.filter isProp).filterMap prop? := by
  induction rs with
  | nil => rfl
  | cons r rs ih =>
    cases h : isProp r with
    | true => rw [List.filter_cons_of_pos h, List.filterMap_cons, List.filterMap_cons, ih]
    | false =>
      have hnot : ¬isProp r = true := by simp [h]
      rw [List.filter_cons_of_neg hnot, List.filterMap_cons, prop?_eq_none h, ih]

/-- A failure that a registration asks for is that of a prop. -/
theorem unsupported?_eq_some {r : Registration} {f : Failure} (h : unsupported? r = some f) :
    ∃ key fault, f = .badProp key fault := by
  unfold unsupported? at h
  split at h
  · exact ⟨_, _, (Option.some.inj h).symm⟩
  · cases h

/-- The keyword arguments of the calls in a file that was read are in the text. -/
theorem propKeywords_plain [CharacterNames] {path text : Text} {source : Source} {b : Text}
    (h : Source.ofText path text = .ok source)
    (hsigns : ∀ k ∈ propKeywords source b, hasSignedReference source.text k.value = false) :
    ∀ k ∈ propKeywords source b, IsPlain source.text k.value := by
  intro k hk
  refine ⟨?_, hsigns k hk⟩
  obtain ⟨s, hs, hk⟩ := List.mem_flatMap.mp hk
  unfold keywordsOf at hk
  split at hk
  · rename_i span s callee args keywords
    split at hk
    · have hwritten : Expr.Written _ _ := (parse_placed (Source.parse_text h)).2 _ hs
      intro x hx
      exact hwritten x (mem_partsKeywords.mpr ⟨k, hk, hx⟩)
    · cases hk
  · cases hk

/-- In a file that was read, where no sign stands before a name or an attribute that reads as a
number, a binding is made only if every keyword argument of every call that adds props is named and
a literal, and then it has the props with the values of the literals, each in its first place with
its last value. With any other keyword argument the file fails, and the failure is that of a
prop. -/
theorem ofSource_props [CharacterNames] {path text : Text} {source : Source}
    (h : Source.ofText path text = .ok source) (b : Text)
    (hsigns : ∀ k ∈ propKeywords source b, hasSignedReference source.text k.value = false) :
    (∀ binding, Binding.ofSource source b = .ok binding →
      ∃ ps, List.Forall₂ Carries (propKeywords source b) ps ∧ binding.props = settled ps) ∧
    ((∃ k ∈ propKeywords source b, ∀ p, ¬Carries k p) →
      ∃ key fault, Binding.ofSource source b = .error (.badProp key fault)) := by
  have hplain := propKeywords_plain h hsigns
  rw [ofSource_eq, outcome]
  cases hfind : (inFile source b).findSome? unsupported? with
  | some f =>
    obtain ⟨r, -, hr⟩ := List.exists_of_findSome?_eq_some hfind
    obtain ⟨key, fault, rfl⟩ := unsupported?_eq_some hr
    constructor
    · intro binding hok
      cases hok
    · intro _
      exact ⟨key, fault, rfl⟩
  | none =>
    have hnone := List.findSome?_eq_none_iff.mp hfind
    have hall : List.Forall₂ Carries (propKeywords source b)
        ((inFile source b).filterMap prop?) := by
      rw [filterMap_isProp, inFile_props]
      apply carries_all hplain
      intro k hk
      apply hnone
      have hmem : ofKeyword source k ∈ (inFile source b).filter isProp := by
        rw [inFile_props]
        exact List.mem_map_of_mem hk
      exact List.mem_of_mem_filter hmem
    constructor
    · intro binding hok
      refine ⟨_, hall, ?_⟩
      simp only at hok
      split at hok
      · cases hok
      · obtain rfl := Except.ok.inj hok
        rfl
    · rintro ⟨k, hk, hnot⟩
      obtain ⟨i, hi, rfl⟩ := List.mem_iff_getElem.mp hk
      have hlen := hall.length_eq
      exact absurd (List.Forall₂.get hall hi (by omega)) (hnot _)

/-- A file with one prop, written as `value`. -/
def withProp (value : Text) (e : Expr) : Source :=
  { path := "src/App.py"
    text := "a=require_svelte('p')\na.add_props(x=" ++ value ++ ")\n"
    body := [.assign ⟨0, 21⟩ [.name ⟨0, 1⟩ "a"] (.call ⟨2, 21⟩ (.name ⟨2, 16⟩ "require_svelte")
        [.constant ⟨17, 20⟩ (.text "p")] []),
      .expr ⟨22, 37 + Text.size value⟩ (.call ⟨22, 37 + Text.size value⟩
        (.attribute ⟨22, 33⟩ (.name ⟨22, 23⟩ "a") "add_props") [] [⟨some "x", e⟩])] }

theorem propKeywords_withProp (value : Text) (e : Expr) :
    propKeywords (withProp value e) "a" = [⟨some "x", e⟩] := by
  have hadd : IsMethod "a" "add_props" (.attribute ⟨22, 33⟩ (.name ⟨22, 23⟩ "a") "add_props") :=
    ⟨_, _, rfl⟩
  unfold propKeywords withProp
  simp only [List.flatMap_cons, List.flatMap_nil, keywordsOf, List.append_nil, List.nil_append]
  exact if_pos hadd

def minusOne : Expr :=
  .unary ⟨36, 38⟩ .negative (.constant ⟨37, 38⟩ (.int 1))

set_option maxRecDepth 10000 in
/-- A negative number is carried with its sign. -/
theorem ofSource_props_minusOne : ∃ binding ps,
    Source.ofText "src/App.py" (withProp "-1" minusOne).text = .ok (withProp "-1" minusOne) ∧
      Binding.ofSource (withProp "-1" minusOne) "a" = .ok binding ∧
      List.Forall₂ Carries [⟨some "x", minusOne⟩] ps ∧ binding.props = settled ps := by
  have hfile : Source.ofText "src/App.py" (withProp "-1" minusOne).text =
      .ok (withProp "-1" minusOne) := by rfl
  have hbinding : Binding.ofSource (withProp "-1" minusOne) "a" =
      .ok ⟨"p", "src/App.py", [("x", .int (-1))], []⟩ := by rfl
  have hkeywords := propKeywords_withProp "-1" minusOne
  have hsigns : ∀ k ∈ propKeywords (withProp "-1" minusOne) "a",
      hasSignedReference (withProp "-1" minusOne).text k.value = false := by
    intro k hk
    rw [hkeywords] at hk
    obtain rfl := List.mem_singleton.mp hk
    rfl
  obtain ⟨ps, hps, hprops⟩ := (ofSource_props hfile "a" hsigns).1 _ hbinding
  rw [hkeywords] at hps
  exact ⟨_, ps, hfile, hbinding, hps, hprops⟩

def minusName : Expr :=
  .unary ⟨36, 39⟩ .negative (.name ⟨37, 39⟩ "_1")

set_option maxRecDepth 10000 in
/-- The name counts as the number that its digits are. -/
theorem ofSource_signed_name :
    ∃ binding, Source.ofText "src/App.py" (withProp "-_1" minusName).text =
        .ok (withProp "-_1" minusName) ∧
      Binding.ofSource (withProp "-_1" minusName) "a" = .ok binding ∧
      binding.props = [(("x" : Text), .int (-1))] ∧
      ∃ k ∈ propKeywords (withProp "-_1" minusName) "a", ∀ p, ¬Carries k p := by
  refine ⟨⟨"p", "src/App.py", [("x", .int (-1))], []⟩, by rfl, by rfl, rfl, ?_⟩
  rw [propKeywords_withProp]
  refine ⟨_, List.mem_singleton.mpr rfl, ?_⟩
  intro p hp
  cases hp.value with
  | signed sign value => cases value

end Registration

end Pagewright.Binding
