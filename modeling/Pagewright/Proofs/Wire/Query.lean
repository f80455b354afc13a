import Pagewright.Proofs.Text.Pieces
import Pagewright.Proofs.Wire.Address

namespace Pagewright.Wire

open Syntax

/-- The pair that one part of a query is read as: up to its first `=`, and after it. -/
def field (unescape : Text → Text) (part : Text) : Text × Text :=
  (unescape (part.takeWhile (· ≠ '=')), unescape ((part.dropWhile (· ≠ '=')).drop 1))

/-- The pairs of the query of an address. Empty parts are passed over. -/
def fields (unescape : Text → Text) (address : Text) : List (Text × Text) :=
  ((Text.pieces '&' ((address.dropWhile (· ≠ '?')).drop 1)).filter (!·.isEmpty)).map
    (field unescape)

/-- Escaping is undone and leaves no mark of a query, and names travel as they are. -/
structure Undoes (unescape escape : Text → Text) : Prop where
  back : ∀ t, unescape (escape t) = t
  apart : ∀ t, ∀ c ∈ escape t, c ≠ '&' ∧ c ≠ '='
  name : ∀ id, Identifier.Valid id → unescape id = id

variable {w : Browser} {unescape : Text → Text} {sent : Text → Sent}

theorem not_mem_valid {id : Text} {c : Char} (hv : Identifier.Valid id)
    (hc : Identifier.isPart c = false) : c ∉ id := by
  obtain ⟨d, ds, rfl, hd, hds⟩ := hv
  intro hmem
  have hpart : Identifier.isPart c = true := by
    rcases List.mem_cons.mp hmem with rfl | hmem
    · exact isPart_of_isStart hd
    · exact hds c hmem
  rw [hc] at hpart
  exact absurd hpart (by simp)

/-- What carries the texts of a value is taken apart into them. -/
theorem pieces_listed (hu : Undoes unescape w.escape) {id : Text} (hid : Identifier.Valid id)
    (ts : List Text) :
    (Text.pieces '&' (Text.join ['&'] (listed w id ts))).filter (!·.isEmpty) = listed w id ts := by
  have hone : ∀ part ∈ listed w id ts, Text.pieces '&' part = [part] ∧ part.isEmpty = false := by
    intro part hpart
    obtain ⟨t, -, rfl⟩ := List.mem_map.mp hpart
    refine ⟨Text.pieces_one fun hmem => ?_, by simp⟩
    rcases List.mem_append.mp hmem with h | h
    · exact not_mem_valid hid (by decide) h
    · rcases List.mem_cons.mp h with h | h
      · exact absurd h (by decide)
      · exact (hu.apart t '&' h).1 rfl
  cases hl : listed w id ts with
  | nil => rfl
  | cons part later =>
    rw [Text.pieces_join (by simp), ← hl]
    have hflat : (listed w id ts).flatMap (Text.pieces '&') = listed w id ts := by
      rw [List.flatMap_congr fun part h => (hone part h).1]
      simp
    rw [hflat, List.filter_eq_self]
    intro part hpart
    simp [(hone part hpart).2]

theorem field_listed (hu : Undoes unescape w.escape) {id : Text} (hid : Identifier.Valid id)
    (t : Text) : field unescape (id ++ '=' :: w.escape t) = (id, t) := by
  have hne : ∀ c ∈ id, decide (c ≠ '=') = true := by
    intro c hc
    rw [decide_eq_true_eq]
    rintro rfl
    exact not_mem_valid hid (by decide) hc
  rw [field, List.takeWhile_append_of_pos hne, List.dropWhile_append_of_pos hne]
  simp [hu.name id hid, hu.back t]

def pairs (w : Browser) (sent : Text → Sent) (ps : List Param) : List (Text × Text) :=
  ps.flatMap fun p => (carried w (sent p.name)).map fun t => (p.name, t)

/-- The server reads the pairs that the values travel as, parameter by parameter. -/
theorem fields_address (hu : Undoes unescape w.escape) {name : Text}
    (hname : Identifier.Valid name) {ps : List Param}
    (hps : ∀ p ∈ ps, Identifier.Valid p.name) :
    fields unescape ("/api/".toList ++ name ++ query w sent ps) = pairs w sent ps := by
  have hpath : ∀ c ∈ "/api/".toList ++ name, decide (c ≠ '?') = true := by
    intro c hc
    rw [decide_eq_true_eq]
    rintro rfl
    rcases List.mem_append.mp hc with h | h
    · exact absurd h (by decide)
    · exact not_mem_valid hname (by decide) h
  rw [fields, List.dropWhile_append_of_pos hpath, query]
  cases hps' : ps with
  | nil => rfl
  | cons p ps' =>
    rw [if_neg (by simp)]
    simp only [List.dropWhile_cons, decide_not, decide_true, Bool.not_true, Bool.false_eq_true, if_false, List.drop_succ_cons,
      List.drop_zero]
    rw [Text.pieces_join (by simp [parts]), ← hps', parts, List.flatMap_map, List.filter_flatMap,
      List.map_flatMap, pairs]
    refine List.flatMap_congr fun q hq => ?_
    rw [pieces_listed hu (hps q hq), listed, List.map_map]
    exact List.map_congr_left fun t _ => field_listed hu (hps q hq) t

theorem pairs_other {ps : List Param} {key : Text} (h : ∀ p ∈ ps, p.name ≠ key) :
    (pairs w sent ps).filter (·.1 = key) = [] := by
  rw [List.filter_eq_nil_iff]
  intro pair hpair
  obtain ⟨p, hp, t, -, rfl⟩ : ∃ p ∈ ps, ∃ t ∈ carried w (sent p.name), (p.name, t) = pair := by
    simpa [pairs] using hpair
  simpa using h p hp

/-- No pair of another parameter is found under a parameter's name. -/
theorem pairs_own {ps : List Param} (hd : (ps.map (·.name)).Nodup) {p : Param} (hp : p ∈ ps) :
    (pairs w sent ps).filter (·.1 = p.name) =
      (carried w (sent p.name)).map fun t => (p.name, t) := by
  induction ps with
  | nil => simp at hp
  | cons q qs ih =>
    simp only [List.map_cons, List.nodup_cons, List.mem_map, not_exists, not_and] at hd
    rw [pairs, List.flatMap_cons, ← pairs, List.filter_append]
    rcases List.mem_cons.mp hp with rfl | hmem
    · rw [pairs_other hd.1, List.append_nil, List.filter_eq_self]
      simp
    · have hne : q.name ≠ p.name := fun h => hd.1 p hmem h.symm
      have hq : ((carried w (sent q.name)).map fun t => (q.name, t)).filter (·.1 = p.name) = [] := by
        rw [List.filter_eq_nil_iff]
        simp [hne]
      rw [hq, ih hd.2 hmem, List.nil_append]

def values (key : Text) (query : List (Text × Text)) : List Text :=
  (query.filter (·.1 = key)).map (·.2)

theorem values_pairs {ps : List Param} (hd : (ps.map (·.name)).Nodup) {p : Param} (hp : p ∈ ps) :
    values p.name (pairs w sent ps) = carried w (sent p.name) := by
  rw [values, pairs_own hd hp, List.map_map]
  simp [Function.comp_def]

end Pagewright.Wire
