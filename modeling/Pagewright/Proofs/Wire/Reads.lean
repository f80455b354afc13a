import Pagewright.Proofs.Wire.Casts

namespace Pagewright.Wire

open Syntax

/-- The default of a parameter stands where it is pasted as it would stand alone. -/
def Whole [CharacterNames] (p : Param) (fallback : Text) : Prop :=
  ∃ tree, ReadsAs fallback tree ∧
    match p.wireType with
    | some .list => ∃ values, (values = [tree] ∨ tree = .boolean .nowhere .disjunction values) ∧
      ReadsAs (Server.decode p)
        (.boolean .nowhere .disjunction
          (methodTree queryTree "getlist" [textTree p.name] [] :: values))
    | some .table => ReadsAs (Server.decode p)
      (.conditional .nowhere
        (.compare .nowhere (textTree p.name) [(.member, queryTree)])
        (frameTree (.subscript .nowhere queryTree (textTree p.name))) tree)
    | _ => ReadsAs (Server.decode p)
      (methodTree queryTree "get" [textTree p.name]
        [⟨some "default", tree⟩, ⟨some "type", nameTree (castName p)⟩])

def uses (p : Param) : List Text :=
  match p.wireType with
  | some .list => ["request"]
  | some .table => ["request", "_json", "_pd"]
  | _ => ["request", castName p]

namespace Handler

variable {h : Handler} {p : Param} {vars : Locals}

theorem evalText_readsAs [CharacterNames] {t : Text} {e : Expr} (ht : ReadsAs t e) :
    h.evalText t vars = h.eval e vars := by
  obtain ⟨span, e', hparse, rfl⟩ := ht
  rw [evalText, hparse]

def castBy [CharacterNames] (p : Param) : Text → Option Value :=
  match p.wireType with
  | some .integer => fun t => (int? t).map .int
  | some .boolean => fun t => (asBool? t).map .bool
  | _ => fun t => some (.text t)

theorem cast?_name [CharacterNames] (hc : castName p ∉ h.assigned) :
    h.cast? (nameTree (castName p)) = some (castBy p) := by
  have hown := isGlobal_name hc
  have hother : ∀ global, castName p ≠ global → h.isGlobal global (nameTree (castName p)) = false :=
    fun global hne => isGlobal_other rfl hne
  unfold cast?
  cases hty : p.wireType with
  | none =>
    have hname : castName p = "str".toList := by rw [castName, hty]
    rw [← hname, hown, if_pos rfl]
    rw [castBy, hty]
  | some ty =>
    cases ty with
    | integer =>
      have hname : castName p = "int".toList := by rw [castName, hty]
      rw [hother _ (by rw [hname]; decide), if_neg (by simp), ← hname, hown, if_pos rfl]
      rw [castBy, hty]
    | boolean =>
      have hname : castName p = "_as_bool".toList := by rw [castName, hty]
      rw [hother _ (by rw [hname]; decide), if_neg (by simp), hother _ (by rw [hname]; decide),
        if_neg (by simp), ← hname, hown, if_pos rfl]
      rw [castBy, hty]
    | _ =>
      have hname : castName p = "str".toList := by rw [castName, hty]
      rw [← hname, hown, if_pos rfl]
      rw [castBy, hty]

theorem castOf?_type [CharacterNames] {keywords : List (KeywordArg Expr)} {type : Expr}
    {cast : Text → Option Value}
    (hk : keywords.find? (·.name = some "type".toList) = some ⟨some "type".toList, type⟩)
    (hc : h.cast? type = some cast) : h.castOf? keywords = some cast := by
  rw [castOf?, hk, ← hc]

/-- What the read of a parameter is meant to give: the value that was sent, or else the default,
which a cast needs at hand before it is tried. -/
def intended? [CharacterNames] (h : Handler) (p : Param) (vars : Locals) : Option
    (Value × Locals) :=
  let sent := values p.name h.query
  match p.wireType with
  | some .list =>
    match sent, p.fallback with
    | [], some d => h.evalText d vars
    | sent, _ => some (.texts sent, vars)
  | some .table =>
    match sent, p.fallback with
    | [], some d => h.evalText d vars
    | sent, _ => (h.loads (sent.head?.getD "[]")).map fun j => (.frame j, vars)
  | _ =>
    match p.fallback with
    | some d => (h.evalText d vars).map fun r => (h.read p.name r.1 (castBy p), r.2)
    | none => some (h.read p.name .none (castBy p), vars)

theorem uses_list (hty : p.wireType = some .list) : uses p = ["request".toList] := by
  rw [uses, hty]

theorem uses_table (hty : p.wireType = some .table) :
    uses p = ["request".toList, "_json".toList, "_pd".toList] := by
  rw [uses, hty]

theorem uses_cast (hl : p.wireType ≠ some .list) (hf : p.wireType ≠ some .table) :
    uses p = ["request".toList, castName p] := by
  unfold uses
  split
  · exact absurd ‹_› hl
  · exact absurd ‹_› hf
  · rfl

theorem readTree_cast (hl : p.wireType ≠ some .list) (hf : p.wireType ≠ some .table) :
    readTree p = methodTree queryTree "get" [textTree p.name]
      [⟨some "type", nameTree (castName p)⟩] := by
  unfold readTree
  split
  · exact absurd ‹_› hl
  · exact absurd ‹_› hf
  · rfl

theorem intended_cast [CharacterNames] (hl : p.wireType ≠ some .list)
    (hf : p.wireType ≠ some .table) :
    h.intended? p vars = match p.fallback with
      | some d => (h.evalText d vars).map fun r => (h.read p.name r.1 (castBy p), r.2)
      | none => some (h.read p.name .none (castBy p), vars) := by
  unfold intended?
  split
  · exact absurd ‹_› hl
  · exact absurd ‹_› hf
  · rfl

theorem request_mem_uses (p : Param) : "request".toList ∈ uses p := by
  unfold uses
  split <;> exact .head _

theorem evalFirst_list [CharacterNames] {es : List Expr} {e : Expr} {ts : List Text} (hes : es ≠ [])
    (he : h.eval e vars = some (.texts ts, vars)) :
    h.evalFirst (e :: es) vars = if ts.isEmpty then h.evalFirst es vars else some (.texts ts, vars) := by
  obtain ⟨e', es', rfl⟩ := List.exists_cons_of_ne_nil hes
  rw [evalFirst, he]
  · cases ts <;> rfl
  · simp

section Reads

variable (hfree : ∀ id ∈ uses p, id ∉ h.assigned)
include hfree

/-- The text that reads a list gives what it is meant to. -/
theorem evalText_list [CharacterNames] (hheld : IsHeld p.name) (hty : p.wireType = some .list)
    (hdefault : ∀ d, p.fallback = some d → Whole p d ∧ ∃ r, h.evalText d vars = some r) :
    h.evalText (Server.decode p) vars = h.intended? p vars := by
  have hrequest := hfree _ (request_mem_uses p)
  unfold intended?
  rw [hty]
  cases hd : p.fallback with
  | none =>
    rw [evalText_readsAs (readsAs_decode hheld hd), readTree, hty]
    cases hsent : values p.name h.query <;> simp only [eval_getlist hrequest, hsent]
  | some d =>
    obtain ⟨⟨tree, hread, hcase⟩, r, hr⟩ := hdefault d hd
    rw [hty] at hcase
    obtain ⟨es, hes, hdecode⟩ := hcase
    have hlater : h.evalFirst es vars = h.evalText d vars := by
      rw [evalText_readsAs hread]
      rcases hes with rfl | rfl
      · rw [evalFirst]
      · rw [eval]
    have hne : es ≠ [] := by
      rintro rfl
      rw [hr, evalFirst] at hlater
      cases hlater
    rw [evalText_readsAs hdecode, eval, evalFirst_list hne (eval_getlist hrequest), hlater]
    cases values p.name h.query <;> rfl

/-- The text that reads a table gives what it is meant to. -/
theorem evalText_table [CharacterNames] (hheld : IsHeld p.name) (hty : p.wireType = some .table)
    (hdefault : ∀ d, p.fallback = some d → Whole p d) :
    h.evalText (Server.decode p) vars = h.intended? p vars := by
  have hrequest := hfree _ (request_mem_uses p)
  have hjson := hfree "_json" (by rw [uses_table hty]; simp)
  have hpandas := hfree "_pd" (by rw [uses_table hty]; simp)
  unfold intended?
  rw [hty]
  cases hd : p.fallback with
  | none =>
    have hread : h.eval (methodTree queryTree "get" [textTree p.name, textTree "[]"] []) vars =
        some (h.read p.name (.text "[]") (some ∘ .text), vars) :=
      eval_readText hrequest (eval_text _)
    have htext : h.read p.name (.text "[]") (some ∘ .text) =
        .text ((values p.name h.query).head?.getD "[]") := by
      unfold read
      cases (values p.name h.query).head? <;> rfl
    rw [htext] at hread
    rw [evalText_readsAs (readsAs_decode hheld hd), readTree, hty]
    refine (eval_frame hjson hpandas hread).trans ?_
    cases values p.name h.query <;> rfl
  | some d =>
    obtain ⟨tree, hread, hcase⟩ := hdefault d hd
    rw [hty] at hcase
    rw [evalText_readsAs hcase, eval, eval_member hrequest]
    cases hsent : values p.name h.query with
    | nil => exact (evalText_readsAs hread).symm
    | cons t ts =>
      have hfirst : (values p.name h.query).head? = some t := by
        rw [hsent]
        rfl
      exact eval_frame hjson hpandas (eval_subscript hrequest hfirst)

/-- The text that reads a scalar gives what it is meant to. -/
theorem evalText_cast [CharacterNames] (hheld : IsHeld p.name) (hl : p.wireType ≠ some .list)
    (hf : p.wireType ≠ some .table) (hdefault : ∀ d, p.fallback = some d → Whole p d) :
    h.evalText (Server.decode p) vars = h.intended? p vars := by
  have hrequest := hfree _ (request_mem_uses p)
  have hcast := cast?_name (hfree (castName p) (by rw [uses_cast hl hf]; simp))
  rw [intended_cast hl hf]
  cases hd : p.fallback with
  | none =>
    rw [evalText_readsAs (readsAs_decode hheld hd), readTree_cast hl hf,
      eval_read hrequest (castOf?_type rfl hcast)]
    rfl
  | some d =>
    obtain ⟨tree, hread, hcase⟩ := hdefault d hd
    have hdecode : ReadsAs (Server.decode p) (methodTree queryTree "get" [textTree p.name]
        [⟨some "default", tree⟩, ⟨some "type", nameTree (castName p)⟩]) := by
      revert hcase
      split
      · exact absurd ‹_› hl
      · exact absurd ‹_› hf
      · exact id
    have hfirst : h.evalDefault [⟨some "default".toList, tree⟩,
        ⟨some "type".toList, nameTree (castName p)⟩] vars = h.evalText d vars := by
      rw [evalDefault, if_pos rfl, evalText_readsAs hread]
    rw [evalText_readsAs hdecode, eval_read hrequest (castOf?_type rfl hcast), hfirst]

end Reads

/-- As long as a handler leaves alone the names that the read of a parameter uses, the read gives
what it is meant to give. -/
theorem evalText_intended [CharacterNames] (hfree : ∀ id ∈ uses p, id ∉ h.assigned)
    (hheld : IsHeld p.name)
    (hdefault : ∀ d, p.fallback = some d → Whole p d ∧ ∃ r, h.evalText d vars = some r) :
    h.evalText (Server.decode p) vars = h.intended? p vars := by
  by_cases hl : p.wireType = some .list
  · exact evalText_list hfree hheld hl hdefault
  · by_cases hf : p.wireType = some .table
    · exact evalText_table hfree hheld hf fun d hd => (hdefault d hd).1
    · exact evalText_cast hfree hheld hl hf fun d hd => (hdefault d hd).1

end Handler
end Pagewright.Wire
