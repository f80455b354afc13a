import Pagewright.Proofs.Lexing.Written
import Pagewright.Proofs.Number.Reading
import Pagewright.Proofs.Text.Trimming
import Pagewright.Proofs.Wire.Handler
import Pagewright.Proofs.Wire.Reading

namespace Pagewright.Wire

open Syntax

/-- A number is cast back from its decimal text. -/
theorem int?_ofInt (n : Int) : int? (Text.ofInt n) = some n := by
  have hdigit : ∀ c ∈ Text.ofNat n.natAbs, c.isDigit = true := fun c hc => Number.ofNat_digit hc
  have hblank : ∀ c ∈ Text.ofInt n, Text.isBlank c = false := by
    intro c hc
    rcases Number.mem_ofInt hc with rfl | hc
    · rfl
    · exact not_blank_digit hc
  have hone : Text.pieces '_' (Text.ofNat n.natAbs) = [Text.ofNat n.natAbs] :=
    Text.pieces_one fun h => absurd (hdigit _ h) (by decide)
  have hall : (Text.ofNat n.natAbs).all Char.isDigit = true := List.all_eq_true.mpr hdigit
  have hne : (Text.ofNat n.natAbs).isEmpty = false := by
    simp [Number.ofNat_ne_nil]
  simp only [int?, Text.trim_of_not_blank hblank, Number.readSign_ofInt, hone, List.all_cons, hne, hall,
    List.all_nil, Bool.not_false, Bool.and_self, if_true, List.flatten_cons, List.flatten_nil,
    List.append_nil, Number.ofDigits_ofNat, Number.signed_natAbs]

namespace Handler

variable {h : Handler} {key : Text} {vars : Locals}

theorem isGlobal_name {id : Text} (hid : id ∉ h.assigned) : h.isGlobal id (nameTree id) = true := by
  simp [isGlobal, nameTree, hid]

theorem isGlobal_other {id : Text} {e : Expr} {global : Text} (he : e = nameTree id) (hne : id ≠ global) :
    h.isGlobal global e = false := by
  simp [isGlobal, nameTree, he, hne]

theorem isQuery_tree (hr : "request".toList ∉ h.assigned) : h.isQuery queryTree = true := by
  rw [queryTree, isQuery, isGlobal_name hr]
  rfl

theorem isQuery_name (id : Text) : h.isQuery (nameTree id) = false := rfl

theorem isGlobal_query (global : Text) : h.isGlobal global queryTree = false := rfl

theorem eval_text [CharacterNames] (t : Text) : h.eval (textTree t) vars = some (.text t, vars) :=
     rfl

theorem eval_getlist [CharacterNames] (hr : "request".toList ∉ h.assigned) :
    h.eval (methodTree queryTree "getlist" [textTree key] []) vars =
      some (.texts (values key h.query), vars) := by
  change ite _ _ _ = _
  rw [if_pos ⟨isQuery_tree hr, rfl, rfl⟩, eval_text]
  rfl

theorem eval_member [CharacterNames] (hr : "request".toList ∉ h.assigned) :
    h.eval (.compare .nowhere (textTree key) [(.member, queryTree)]) vars =
      some (.bool !(values key h.query).isEmpty, vars) := by
  change ite _ _ _ = _
  rw [if_pos (isQuery_tree hr), eval_text]
  rfl

theorem eval_subscript [CharacterNames] (hr : "request".toList ∉ h.assigned) {t : Text}
    (ht : (values key h.query).head? = some t) :
    h.eval (.subscript .nowhere queryTree (textTree key)) vars = some (.text t, vars) := by
  change ite _ _ _ = _
  rw [if_pos (isQuery_tree hr), eval_text]
  simp only [bind, Option.bind, ht]

/-- A read gives what its cast makes of the text that was sent. -/
theorem eval_read [CharacterNames] (hr : "request".toList ∉ h.assigned)
    {keywords : List (KeywordArg Expr)}
    {cast : Text → Option Value} (hcast : h.castOf? keywords = some cast) :
    h.eval (methodTree queryTree "get" [textTree key] keywords) vars =
      (h.evalDefault keywords vars).map fun r => (h.read key r.1 cast, r.2) := by
  change ite _ _ _ = _
  rw [if_neg (by simp), isGlobal_query, isGlobal_query, if_neg (by simp),
    if_neg (by simp), if_pos ⟨isQuery_tree hr, rfl⟩, eval_text]
  simp only [bind, Option.bind, hcast]
  cases h.evalDefault keywords vars <;> rfl

theorem eval_readText [CharacterNames] (hr : "request".toList ∉ h.assigned) {fallback : Expr}
    {v : Value} {vars' : Locals} (hv : h.eval fallback vars = some (v, vars')) :
    h.eval (methodTree queryTree "get" [textTree key, fallback] []) vars =
      some (h.read key v (some ∘ .text), vars') := by
  change ite _ _ _ = _
  rw [if_pos ⟨isQuery_tree hr, rfl, rfl⟩, eval_text]
  simp only [bind, Option.bind, hv]

/-- A read of a key that was sent once, as a text that the cast takes. -/
theorem read_one {t : Text} {v fallback : Value} {cast : Text → Option Value}
    (ht : values key h.query = [t]) (hcast : cast t = some v) : h.read key fallback cast = v := by
  rw [read, ht, List.head?_cons]
  simp only [hcast, Option.getD_some]

/-- A table is made of the JSON text that is read for it. -/
theorem eval_frame [CharacterNames] (hj : "_json".toList ∉ h.assigned)
    (hp : "_pd".toList ∉ h.assigned) {e : Expr}
    {t : Text} {vars' : Locals} (he : h.eval e vars = some (.text t, vars')) :
    h.eval (frameTree e) vars = (h.loads t).map fun j => (.frame j, vars') := by
  have hloads : h.eval (methodTree (nameTree "_json") "loads" [e] []) vars =
      (h.loads t).map fun j => (.json j, vars') := by
    change ite _ _ _ = _
    rw [if_neg (by simp [isQuery_name]), if_pos ⟨isGlobal_name hj, rfl, rfl⟩, he]
    simp only [bind, Option.bind]
    cases h.loads t <;> rfl
  change ite _ _ _ = _
  rw [if_neg (by simp [isQuery_name]),
    if_neg (by simp [isGlobal, nameTree]), if_pos ⟨isGlobal_name hp, rfl, rfl⟩, hloads]
  cases h.loads t <;> rfl

end Handler
end Pagewright.Wire
